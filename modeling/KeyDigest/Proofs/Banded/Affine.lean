import KeyDigest.Proofs.Banded.Medium
import KeyDigest.Proofs.Banded.Short

/-!
# What a sum changes

Outside the strides, which add, a key is only folded. So two keys of one length differ in their
digests by what their bytewise sum folds to in a register of zero: the length, which they have in
common, drops out. That sum decides whether they collide.

* `digest_xor_digest`: the difference of two digests, for the short band, the long band and keys of
  16 bytes, which are all tail.

**Theorem (`digest_affine`).** The digest of a sum of three keys is the sum of their digests, and
keys of one sum collide alike.
-/

namespace KeyDigest.Banded

open Crc Sampling

variable {kernel : Kernel} {key key' : Key} {t t' : OffsetTable}

/-- The lengths of the keys that have no strides. -/
def Unstrided (n : Nat) : Prop := 4 ≤ n ∧ n ≤ 16 ∨ 128 ≤ n ∧ n < 2 ^ 64

/-- What adding `d` to a key changes in its digest. -/
def digestChange (t : OffsetTable) (d : Key) : UInt32 :=
  if d.size < 16 then
    Kernel.software.fold64 (Kernel.software.fold64 0 (shortWords d).1) (shortWords d).2
  else if d.size = 16 then Kernel.software.fold32 (Kernel.software.fold64 0 (tailSum d)) 0
  else laneDigest .software 0 (longSums d (longOffsets t d.size))

/-! ## Words of a sum -/

/-- The sum of the words at two positions. -/
def pairSum (key : Key) (q : Nat × Nat) : UInt64 := key.word64At q.1 ^^^ key.word64At q.2

/-- The positions of the pairs of words that the lanes of a long key take in. -/
def longPositions (n : Nat) (o : UInt32 × UInt32) : List (Nat × Nat) :=
  (List.range 8).map (samplePositions n o) ++ [(0, n - 8)]

theorem tailSum_eq (key : Key) : tailSum key = pairSum key (key.size - 16, key.size - 8) := rfl

theorem longSums_eq (key : Key) (o : UInt32 × UInt32) :
    longSums key o = (longPositions key.size o).map (pairSum key) := by
  rw [longSums, longWords, longPositions, List.map_append, List.map_append, List.map_map,
    List.map_map]
  rfl

section

variable (hsize : key'.size = key.size)
include hsize

theorem shortWords_xor (hfour : 4 ≤ key.size) :
    shortWords (key.xor key') =
      ((shortWords key).1 ^^^ (shortWords key').1, (shortWords key).2 ^^^ (shortWords key').2) := by
  have hsum : (key.xor key').size = key.size := Key.size_xor hsize
  have hwidth : shortWidth key.size ≤ 8 := by
    rw [shortWidth]
    split <;> omega
  rw [shortWords_eq (by omega), shortWords_eq hfour, shortWords_eq (by omega), hsum, hsize,
    Key.wordAt_xor hwidth hsize, Key.wordAt_xor hwidth hsize]

theorem pairSum_xor (q : Nat × Nat) :
    pairSum (key.xor key') q = pairSum key q ^^^ pairSum key' q := by
  have hfirst : (key.xor key').word64At q.1 = key.word64At q.1 ^^^ key'.word64At q.1 :=
    Key.word64At_xor hsize
  have hsecond : (key.xor key').word64At q.2 = key.word64At q.2 ^^^ key'.word64At q.2 :=
    Key.word64At_xor hsize
  rw [pairSum, hfirst, hsecond, pairSum, pairSum]
  ac_rfl

theorem tailSum_xor : tailSum (key.xor key') = tailSum key ^^^ tailSum key' := by
  rw [tailSum_eq, tailSum_eq, tailSum_eq, Key.size_xor hsize, hsize, pairSum_xor hsize]

theorem longSums_xor (o : UInt32 × UInt32) :
    longSums (key.xor key') o =
      List.zipWith (· ^^^ ·) (longSums key o) (longSums key' o) := by
  have hpairs : pairSum (key.xor key') = fun q => pairSum key q ^^^ pairSum key' q :=
    funext (pairSum_xor hsize)
  rw [longSums_eq, longSums_eq, longSums_eq, Key.size_xor hsize, hsize, hpairs, List.zipWith_map,
    List.zipWith_self]

end

/-! ## Registers -/

theorem foldl_fold64_xor {words words' : List UInt64} (h : words.length = words'.length)
    (r r' : UInt32) :
    (List.zipWith (· ^^^ ·) words words').foldl Kernel.software.fold64 (r ^^^ r') =
      words.foldl Kernel.software.fold64 r ^^^ words'.foldl Kernel.software.fold64 r' := by
  induction words generalizing words' r r' with
  | nil =>
    rw [List.eq_nil_of_length_eq_zero h.symm]
    rfl
  | cons w words ih =>
    obtain ⟨w', words', rfl⟩ := List.exists_cons_of_length_eq_add_one h.symm
    rw [List.zipWith_cons_cons, List.foldl_cons, List.foldl_cons, List.foldl_cons, fold64_xor]
    exact ih (Nat.succ.inj h) _ _

theorem laneDigest_xor {words words' : List UInt64} (h : words.length = words'.length)
    (n n' : UInt32) :
    laneDigest .software (n ^^^ n') (List.zipWith (· ^^^ ·) words words') =
      laneDigest .software n words ^^^ laneDigest .software n' words' := by
  have hlength := fold32_xor 0 0 n n'
  have hjoin := fold32_xor (words.foldl Kernel.software.fold64 (Kernel.software.fold32 0 n))
    (words'.foldl Kernel.software.fold64 (Kernel.software.fold32 0 n')) 0 0
  rw [UInt32.xor_self] at hlength hjoin
  rw [laneDigest, laneDigest, laneDigest, hlength, foldl_fold64_xor h, hjoin]

/-! ## Digests -/

section

variable (hsize : key'.size = key.size)
include hsize

theorem shortDigest_xor_shortDigest (hfour : 4 ≤ key.size) :
    shortDigest .software key ^^^ shortDigest .software key' =
      Kernel.software.fold64 (Kernel.software.fold64 0 (shortWords (key.xor key')).1)
        (shortWords (key.xor key')).2 := by
  rw [shortDigest_xor hsize, shortWords_xor hsize hfour, ← fold64_eq_xor]

/-- A key of 16 bytes is all tail. -/
theorem mediumDigest_xor_mediumDigest (hsixteen : key.size = 16) :
    mediumDigest .software key ^^^ mediumDigest .software key' =
      Kernel.software.fold32 (Kernel.software.fold64 0 (tailSum (key.xor key'))) 0 := by
  have hstart : (stridden key' (strideCount 16)).sum = (stridden key (strideCount 16)).sum := by
    show (stridden key' 0).sum = (stridden key 0).sum
    rw [stridden, stridden, hsize]
    rfl
  rw [mediumDigest_eq, mediumDigest_eq, hsize, hsixteen, hstart, ← fold32_xor, ← fold64_xor,
    UInt32.xor_self, UInt32.xor_self, tailSum_xor hsize]

theorem longDigest_xor_longDigest (t : OffsetTable) :
    longDigest .software t key ^^^ longDigest .software t key' =
      laneDigest .software 0 (longSums (key.xor key') (longOffsets t key.size)) := by
  have hlength : (longSums key (longOffsets t key.size)).length =
      (longSums key' (longOffsets t key.size)).length := by
    rw [longSums_eq, longSums_eq, List.length_map, List.length_map, hsize]
  rw [longDigest_eq_laneDigest, longDigest_eq_laneDigest, hsize, ← laneDigest_xor hlength,
    UInt32.xor_self, longSums_xor hsize]

/-- **The difference of two digests is that of the sum.** -/
theorem digest_xor_digest (hkernel : kernel.Documented) (t : OffsetTable)
    (hband : Unstrided key.size) :
    digest kernel t key ^^^ digest kernel t key' = digestChange t (key.xor key') := by
  have hagree := hkernel.agree Kernel.software_documented
  have hsum : (key.xor key').size = key.size := Key.size_xor hsize
  rw [digest_congr hagree, digest_congr hagree, digestChange, hsum]
  rcases hband with ⟨hfour, hle⟩ | ⟨hlong, hkey⟩
  · split
    · next hshort =>
      rw [digest_of_short hfour hshort, digest_of_short (by omega) (by omega),
        shortDigest_xor_shortDigest hsize hfour]
    · next hshort =>
      have hsixteen : key.size = 16 := by omega
      rw [if_pos hsixteen, digest_of_medium (by omega) (by omega),
        digest_of_medium (by omega) (by omega), mediumDigest_xor_mediumDigest hsize hsixteen]
  · rw [if_neg (by omega), if_neg (by omega), digest_of_long hlong hkey,
      digest_of_long (by omega) (by omega), longDigest_xor_longDigest hsize]

theorem digest_eq_iff_digestChange (hkernel : kernel.Documented) (t : OffsetTable)
    (hband : Unstrided key.size) :
    digest kernel t key = digest kernel t key' ↔ digestChange t (key.xor key') = 0 := by
  rw [← digest_xor_digest hsize hkernel t hband, UInt32.xor_eq_zero_iff]

end

/-- The table has a say in long keys only, and only by the offsets for their length. -/
theorem digestChange_congr {d : Key} (hband : Unstrided d.size)
    (h : 128 ≤ d.size → longOffsets t d.size = longOffsets t' d.size) :
    digestChange t d = digestChange t' d := by
  rw [digestChange, digestChange]
  rcases hband with ⟨-, hle⟩ | ⟨hlong, -⟩
  · by_cases hshort : d.size < 16
    · rw [if_pos hshort, if_pos hshort]
    · rw [if_neg hshort, if_neg hshort, if_pos (by omega), if_pos (by omega)]
  · rw [h hlong]

/-- **Outside the strides the digest is affine.** On every kernel that folds as documented, with
every table and for every length from 4 to 16 or of at least 128, the digest of the bytewise sum of
three keys is the sum of the three digests. Whether two keys collide is decided by their bytewise
sum, and in the long band by the offsets that the table has for the length. -/
theorem digest_affine (hkernel : kernel.Documented) {n : Nat}
    (hband : 4 ≤ n ∧ n ≤ 16 ∨ 128 ≤ n ∧ n < 2 ^ 64) :
    (∀ (t : OffsetTable) (a b c : Key), a.size = n → b.size = n → c.size = n →
      digest kernel t ((a.xor b).xor c) =
        digest kernel t a ^^^ digest kernel t b ^^^ digest kernel t c) ∧
    ∀ (t t' : OffsetTable) (a b a' b' : Key), a.size = n → b.size = n → a'.size = n → b'.size = n →
      (128 ≤ n → longOffsets t n = longOffsets t' n) → a.xor b = a'.xor b' →
        (digest kernel t a = digest kernel t b ↔ digest kernel t' a' = digest kernel t' b') := by
  refine ⟨?_, ?_⟩
  · rintro t a b c rfl hb hc
    have hsum : (a.xor b).size = a.size := Key.size_xor hb
    have hthree : ((a.xor b).xor c).size = a.size := by
      rw [Key.size_xor (by omega), hsum]
    -- Without `c` the sum of three is the sum of two.
    have hchange : digest kernel t ((a.xor b).xor c) ^^^ digest kernel t c =
        digest kernel t a ^^^ digest kernel t b := by
      rw [digest_xor_digest (by omega) hkernel t (by rw [hthree]; exact hband),
        Key.xor_xor_cancel (by omega), digest_xor_digest hb hkernel t hband]
    rw [← hchange, UInt32.xor_assoc, UInt32.xor_self, UInt32.xor_zero]
  · rintro t t' a b a' b' rfl hb ha' hb' hoffsets hsum
    have hsize : (a.xor b).size = a.size := Key.size_xor hb
    rw [digest_eq_iff_digestChange hb hkernel t hband,
      digest_eq_iff_digestChange (by omega) hkernel t' (by rw [ha']; exact hband), ← hsum,
      digestChange_congr (by rw [hsize]; exact hband) (by rwa [hsize])]

/-- Three long keys, and two pairs of keys of four bytes with one sum. -/
theorem digest_affine_long_and_four :
    Kernel.hardware.Documented ∧ (128 : Nat) ≤ 128 ∧ (128 : Nat) < 2 ^ 64 ∧
    (4 : Nat) ≤ 4 ∧ (4 : Nat) ≤ 16 ∧
    digest .hardware (.ofSeed 1)
        ((Key.xor (Array.replicate 128 1) (Array.replicate 128 2)).xor (Array.replicate 128 4)) =
      digest .hardware (.ofSeed 1) (Array.replicate 128 1) ^^^
        digest .hardware (.ofSeed 1) (Array.replicate 128 2) ^^^
          digest .hardware (.ofSeed 1) (Array.replicate 128 4) ∧
    Key.xor #[1, 2, 3, 4] #[5, 6, 7, 8] = Key.xor #[0, 0, 0, 0] #[4, 4, 4, 12] ∧
    (digest .hardware .zero #[1, 2, 3, 4] = digest .hardware .zero #[5, 6, 7, 8] ↔
      digest .hardware (.ofSeed 1) #[0, 0, 0, 0] =
        digest .hardware (.ofSeed 1) #[4, 4, 4, 12]) := by
  have hdocumented : Kernel.hardware.Documented := Kernel.hardware_documented
  have hsum : Key.xor #[1, 2, 3, 4] #[5, 6, 7, 8] = Key.xor #[0, 0, 0, 0] #[4, 4, 4, 12] := by
    rw [Key.xor, Key.xor, List.zipWith_toArray, List.zipWith_toArray]
    decide
  obtain ⟨hlong, -⟩ := digest_affine hdocumented (n := 128) (Or.inr ⟨by decide, by decide⟩)
  obtain ⟨-, hfour⟩ := digest_affine hdocumented (n := 4) (Or.inl ⟨by decide, by decide⟩)
  exact ⟨hdocumented, by decide, by decide, by decide, by decide,
    hlong _ _ _ _ Array.size_replicate Array.size_replicate Array.size_replicate, hsum,
    hfour _ _ _ _ _ _ rfl rfl rfl rfl (by decide) hsum⟩

end KeyDigest.Banded
