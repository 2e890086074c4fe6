import KeyDigest.Proofs.Banded.Affine
import KeyDigest.Proofs.Banded.Positions

/-!
# Changes in the tail of a long key

The last word of a long key is folded for itself, after all samples. But samples can read it again:
in the last pair of chunks the first one, where it is pulled back, and the second one, where its
offset is small, and in a key of little more than 128 bytes the second one of the pair before. What
these samples make of a change of the last four bytes can be the change itself.

* `digest_eq_iff_tail`: which changes of the last four bytes are lost.

**Theorem (`tails_collide_iff`).** When two keys that differ in their last four bytes only collide,
and for which lengths they never do.
-/

namespace KeyDigest.Banded

open Crc LittleEndian Sampling

variable {kernel : Kernel} {key key' d : Key} {t : OffsetTable} {n : Nat}

/-! ## The high half of a word -/

/-- The word whose high half is `w`. -/
def raised (w : UInt32) : UInt64 := ⟨w.toBitVec.setWidth 64 <<< 32⟩

theorem getLsbD_raised (w : UInt32) (j : Nat) :
    (raised w).toBitVec.getLsbD j = (decide (32 ≤ j) && w.toBitVec.getLsbD (j - 32)) := by
  rw [raised, BitVec.getLsbD_shiftLeft, BitVec.getLsbD_setWidth]
  by_cases hhigh : j < 64
  · by_cases hlow : 32 ≤ j
    · have hplace : j - 32 < 64 := by omega
      simp [hhigh, hlow, hplace]
    · simp [hlow]
  · simp [hhigh, BitVec.getLsbD_of_ge w.toBitVec (j - 32) (by omega)]

theorem raised_zero : raised 0 = 0 := by decide

theorem raised_xor (w w' : UInt32) : raised w ^^^ raised w' = raised (w ^^^ w') := by
  apply UInt64.toBitVec_inj.1
  apply BitVec.eq_of_getLsbD_eq
  intro j _
  rw [UInt64.toBitVec_xor, BitVec.getLsbD_xor, getLsbD_raised, getLsbD_raised, getLsbD_raised,
    UInt32.toBitVec_xor, BitVec.getLsbD_xor, Bool.and_xor_distrib_left]

/-- The low half leaves a register of zero as it is. -/
theorem fold64_raised (w : UInt32) : Kernel.software.fold64 0 (raised w) = shifts 32 w := by
  have hlow : (raised w).toUInt32 = 0 := by
    apply eq_of_bits
    intro j hj
    rw [UInt64.toBitVec_toUInt32, BitVec.getLsbD_setWidth, getLsbD_raised,
      decide_eq_false (Nat.not_le_of_lt hj)]
    simp
  have hhigh : (raised w >>> 32).toUInt32 = w := by
    apply eq_of_bits
    intro j hj
    have hbit := getLsbD_raised w (32 + j)
    rw [decide_eq_true (Nat.le_add_right 32 j), Nat.add_sub_cancel_left, Bool.true_and] at hbit
    rw [← hbit, UInt64.toBitVec_toUInt32, BitVec.getLsbD_setWidth, UInt64.toBitVec_shiftRight]
    simp [hj]
  rw [fold64_eq_fold32, hlow, hhigh, fold32_eq_shifts, fold32_eq_shifts, UInt32.xor_self,
    shifts_zero, UInt32.zero_xor]

theorem laneDigest_raised (x y z : UInt32) :
    laneDigest .software 0 (List.replicate 6 0 ++ [raised x, raised y, raised z]) =
      shifts 64 (shifts 128 x ^^^ shifts 64 y ^^^ z) := by
  have hlength : Kernel.software.fold32 0 0 = 0 := by
    rw [fold32_eq_shifts, UInt32.xor_self, shifts_zero]
  have hearly : (List.replicate 6 0).foldl Kernel.software.fold64 0 = 0 := by
    simp [List.replicate, fold64_zero]
  have hlate (r : UInt32) (w : UInt32) :
      Kernel.software.fold64 r (raised w) = shifts 64 r ^^^ shifts 32 w := by
    rw [fold64_eq_xor, fold64_raised]
  rw [laneDigest, hlength, List.foldl_append, hearly, List.foldl_cons, List.foldl_cons,
    List.foldl_cons, List.foldl_nil, hlate, hlate, fold64_raised, fold32_eq_shifts, UInt32.xor_zero]
  simp only [shifts_xor, ← shifts_add]

/-! ## Words that read the last four bytes -/

/-- The last four bytes of a key. -/
def lastWord (key : Key) : UInt32 := key.word32At (key.size - 4)

/-- What the word at `pos` shows of the last four bytes `w` of a key of `n` bytes, in its high
half. -/
def tailSeen (n pos : Nat) (w : UInt32) : UInt32 := ⟨w.toBitVec <<< (8 * (n - 8 - pos))⟩

theorem tailSeen_of_le {pos : Nat} (h : pos + 12 ≤ n) (w : UInt32) : tailSeen n pos w = 0 := by
  have hplaces : 32 ≤ 8 * (n - 8 - pos) := by omega
  rw [tailSeen, BitVec.shiftLeft_eq_zero hplaces]
  rfl

theorem tailSeen_last (n : Nat) (w : UInt32) : tailSeen n (n - 8) w = w := by
  rw [tailSeen, Nat.sub_self, Nat.mul_zero, BitVec.shiftLeft_zero]

section

variable (hhead : ∀ j < 8 * (d.size - 4), streamBit d.toList j = false)
include hhead

/-- In a key that is zero up to its last four bytes, a word shows nothing else. -/
theorem word64At_of_tail (height : 8 ≤ d.size) {pos : Nat} (hpos : pos ≤ d.size - 8) :
    d.word64At pos = raised (tailSeen d.size pos (lastWord d)) := by
  apply UInt64.toBitVec_inj.1
  apply BitVec.eq_of_getLsbD_eq
  intro j hj
  rw [← Key.wordAt_eight, Key.getLsbD_wordAt (by decide) (by omega), getLsbD_raised, tailSeen,
    BitVec.getLsbD_shiftLeft, decide_eq_true hj, Bool.true_and]
  by_cases htail : 32 + 8 * (d.size - 8 - pos) ≤ j
  · have hplace : 8 * (d.size - 4) + (j - 32 - 8 * (d.size - 8 - pos)) = 8 * pos + j := by omega
    have hlow : 32 ≤ j := by omega
    have hhigh : j - 32 < 32 := by omega
    have hseen : ¬ j - 32 < 8 * (d.size - 8 - pos) := by omega
    rw [lastWord, Key.getLsbD_word32At (by omega) (by omega), hplace]
    simp [hlow, hhigh, hseen]
  · rw [hhead _ (by omega)]
    by_cases hlow : 32 ≤ j
    · have hseen : j - 32 < 8 * (d.size - 8 - pos) := by omega
      simp [hseen]
    · simp [hlow]

theorem pairSum_of_tail (height : 8 ≤ d.size) {q : Nat × Nat} (h1 : q.1 ≤ d.size - 8)
    (h2 : q.2 ≤ d.size - 8) :
    pairSum d q =
      raised (tailSeen d.size q.1 (lastWord d) ^^^ tailSeen d.size q.2 (lastWord d)) := by
  rw [pairSum, word64At_of_tail hhead height h1, word64At_of_tail hhead height h2, raised_xor]

end

/-! ## Samples that reach the last four bytes -/

section

variable {o : UInt32 × UInt32} (hlong : 128 ≤ n) (h1 : o.1.toNat < 2 * (n / 16))
  (h2 : o.2.toNat < 2 * (n / 16))
include hlong

include h1 h2 in
/-- No sample of the first six pairs does. -/
theorem samplePositions_add_le {p : Nat} (hp : p < 6) :
    (samplePositions n o p).1 + 12 ≤ n ∧ (samplePositions n o p).2 + 12 ≤ n := by
  have hbase : 2 * p * (n / 16) ≤ 10 * (n / 16) := Nat.mul_le_mul_right _ (by omega)
  rw [samplePositions_eq, requestedPositions, if_pos (by omega)]
  omega

include h1 in
/-- The first sample of the seventh pair does not either. -/
theorem samplePositions_six_add_le : (samplePositions n o 6).1 + 12 ≤ n := by
  rw [samplePositions_eq, requestedPositions]
  omega

end

theorem samplePositions_six_snd (n : Nat) (o : UInt32 × UInt32) :
    (samplePositions n o 6).2 = min (13 * (n / 16) + o.2.toNat) (n - 8) := by
  rw [samplePositions_eq, requestedPositions, if_pos (by decide)]
  omega

theorem samplePositions_seven_fst (n : Nat) (o : UInt32 × UInt32) :
    (samplePositions n o 7).1 = min (14 * (n / 16) + o.1.toNat) (n - 8) := rfl

theorem samplePositions_seven_snd (n : Nat) (o : UInt32 × UInt32) :
    (samplePositions n o 7).2 = min (16 * (n / 16) - (8 + o.2.toNat)) (n - 8) := by
  rw [samplePositions_eq, requestedPositions, if_neg (by decide)]
  omega

/-- What the samples make of a change `w` of the last four bytes. -/
def tailSampled (n : Nat) (o : UInt32 × UInt32) (w : UInt32) : UInt32 :=
  shifts 128 (tailSeen n (samplePositions n o 6).2 w) ^^^
    shifts 64 (tailSeen n (samplePositions n o 7).1 w ^^^ tailSeen n (samplePositions n o 7).2 w)

section

variable (hhead : ∀ j < 8 * (d.size - 4), streamBit d.toList j = false)
  (hlong : 128 ≤ d.size) (hd : d.size < 2 ^ 64) (ht : t.Built)
include hhead hlong

theorem longSums_of_tail {o : UInt32 × UInt32} (h1 : o.1.toNat < 2 * (d.size / 16))
    (h2 : o.2.toNat < 2 * (d.size / 16)) :
    longSums d o = List.replicate 6 0 ++
      [raised (tailSeen d.size (samplePositions d.size o 6).2 (lastWord d)),
        raised (tailSeen d.size (samplePositions d.size o 7).1 (lastWord d) ^^^
          tailSeen d.size (samplePositions d.size o 7).2 (lastWord d)),
        raised (lastWord d)] := by
  have hsample (p : Nat) : pairSum d (samplePositions d.size o p) =
      raised (tailSeen d.size (samplePositions d.size o p).1 (lastWord d) ^^^
        tailSeen d.size (samplePositions d.size o p).2 (lastWord d)) :=
    pairSum_of_tail hhead (by omega) (Nat.min_le_right _ _) (Nat.min_le_right _ _)
  have hearly : (List.range 6).map (fun p => pairSum d (samplePositions d.size o p)) =
      List.replicate 6 0 := by
    refine List.eq_replicate_iff.2 ⟨by rw [List.length_map, List.length_range], ?_⟩
    intro w hw
    obtain ⟨p, hp, rfl⟩ := List.mem_map.1 hw
    obtain ⟨hfirst, hsecond⟩ := samplePositions_add_le hlong h1 h2 (List.mem_range.1 hp)
    rw [hsample, tailSeen_of_le hfirst, tailSeen_of_le hsecond, UInt32.xor_self, raised_zero]
  have hsix : pairSum d (samplePositions d.size o 6) =
      raised (tailSeen d.size (samplePositions d.size o 6).2 (lastWord d)) := by
    rw [hsample, tailSeen_of_le (samplePositions_six_add_le hlong h1), UInt32.zero_xor]
  have hends : pairSum d (0, d.size - 8) = raised (lastWord d) := by
    rw [pairSum_of_tail hhead (by omega) (Nat.zero_le _) (Nat.le_refl _),
      tailSeen_of_le (by omega), tailSeen_last, UInt32.zero_xor]
  have hrange : List.range 8 = List.range 6 ++ [6, 7] := rfl
  rw [longSums_eq, longPositions, hrange, List.map_append, List.map_append, List.map_append,
    List.map_map, List.append_assoc, ← hsix, ← hsample, ← hends]
  exact congrArg (· ++ _) hearly

include hd ht

theorem digestChange_of_tail :
    digestChange t d =
      shifts 64 (tailSampled d.size (longOffsets t d.size) (lastWord d) ^^^ lastWord d) := by
  obtain ⟨h1, h2⟩ := longOffsets_lt hlong hd ht
  rw [digestChange, if_neg (by omega), if_neg (by omega), longSums_of_tail hhead hlong h1 h2,
    laneDigest_raised, tailSampled]

end

/-! ## Collisions -/

section

variable (hsize : key'.size = key.size) (hhead : ∀ i < key.size - 4, key'[i]? = key[i]?)
include hsize hhead

theorem streamBit_xor_of_tail {j : Nat} (hj : j < 8 * (key.size - 4)) :
    streamBit (key.xor key').toList j = false := by
  have hbyte : key'[j / 8]? = key[j / 8]? := hhead _ (by omega)
  rw [Key.streamBit_xor hsize, streamBit, streamBit, List.getD_eq_getElem?_getD,
    List.getD_eq_getElem?_getD, Array.getElem?_toList, Array.getElem?_toList, hbyte, Bool.xor_self]

theorem eq_of_lastWord_eq (hfour : 4 ≤ key.size) (h : lastWord key = lastWord key') :
    key' = key := by
  have hword : key'.wordAt 4 (key.size - 4) = key.wordAt 4 (key.size - 4) := by
    rw [← Key.toUInt64_word32At (by omega), ← Key.toUInt64_word32At (by omega)]
    rw [lastWord, lastWord, hsize] at h
    rw [h]
  apply Array.ext_getElem?
  intro i
  by_cases hi : i < key.size - 4
  · exact hhead i hi
  by_cases hend : i < key.size
  · exact Key.getElem?_eq_of_wordAt_eq (by decide) (by omega) hsize hword (by omega) (by omega)
  · rw [Array.getElem?_eq_none (by omega), Array.getElem?_eq_none (by omega)]

/-- **Which changes of the last four bytes are lost:** those that the samples give back. -/
theorem digest_eq_iff_tail (hkernel : kernel.Documented) (ht : t.Built) (hlong : 128 ≤ key.size)
    (hkey : key.size < 2 ^ 64) :
    digest kernel t key = digest kernel t key' ↔
      tailSampled key.size (longOffsets t key.size) (lastWord key ^^^ lastWord key') =
        lastWord key ^^^ lastWord key' := by
  have hsum : (key.xor key').size = key.size := Key.size_xor hsize
  have hlast : lastWord (key.xor key') = lastWord key ^^^ lastWord key' := by
    rw [lastWord, lastWord, lastWord, hsum, hsize, Key.word32At_xor hsize (by omega)]
  have hzero : ∀ j < 8 * ((key.xor key').size - 4), streamBit (key.xor key').toList j = false := by
    rw [hsum]
    exact fun j hj => streamBit_xor_of_tail hsize hhead hj
  rw [digest_eq_iff_digestChange hsize hkernel t (Or.inr ⟨hlong, hkey⟩),
    digestChange_of_tail hzero (by omega) (by omega) ht, hsum, hlast,
    (shifts_injective 64).eq_iff' (shifts_zero 64), UInt32.xor_eq_zero_iff]

end

/-! ## Keys of zeros -/

/-- A key of zeros but for its last four bytes. -/
def endingIn (n : Nat) (w : UInt32) : Key := Array.replicate (n - 4) 0 ++ keyOf w

theorem size_endingIn (hfour : 4 ≤ n) (w : UInt32) : (endingIn n w).size = n := by
  rw [endingIn, Array.size_append, Array.size_replicate, size_keyOf]
  omega

theorem getElem?_endingIn (w w' : UInt32) {i : Nat} (hi : i < n - 4) :
    (endingIn n w')[i]? = (endingIn n w)[i]? := by
  have hlt : i < (Array.replicate (n - 4) (0 : UInt8)).size := by rwa [Array.size_replicate]
  rw [endingIn, endingIn, Array.getElem?_append_left hlt, Array.getElem?_append_left hlt]

theorem lastWord_endingIn (hfour : 4 ≤ n) (w : UInt32) : lastWord (endingIn n w) = w := by
  have hsize := size_endingIn hfour w
  refine Eq.trans ?_ (word32At_keyOf w)
  apply UInt32.toUInt64_inj.1
  rw [lastWord, Key.toUInt64_word32At (by omega), Key.toUInt64_word32At (by rw [size_keyOf]), hsize]
  apply Key.wordAt_congr
  · rw [hsize, size_keyOf]
    omega
  · intro i hi
    rw [endingIn, Array.getElem?_append_right (by rw [Array.size_replicate]; omega),
      Array.size_replicate]
    congr 1
    omega

theorem endingIn_ne (hfour : 4 ≤ n) {w w' : UInt32} (h : w ≠ w') :
    endingIn n w ≠ endingIn n w' := by
  intro heq
  apply h
  rw [← lastWord_endingIn hfour w, heq, lastWord_endingIn hfour]

/-! ## What the samples make of a change -/

/-- No sample reaches the last four bytes. -/
structure TailUnsampled (n : Nat) (o : UInt32 × UInt32) : Prop where
  six : (samplePositions n o 6).2 + 12 ≤ n
  first : (samplePositions n o 7).1 + 12 ≤ n
  second : (samplePositions n o 7).2 + 12 ≤ n

/-- One sample of the last pair reaches the last four bytes, at `pos`, and no other sample does. -/
structure TailSampledAt (n : Nat) (o : UInt32 × UInt32) (pos : Nat) : Prop where
  six : (samplePositions n o 6).2 + 12 ≤ n
  seven : (samplePositions n o 7).1 = pos ∧ (samplePositions n o 7).2 + 12 ≤ n ∨
    (samplePositions n o 7).1 + 12 ≤ n ∧ (samplePositions n o 7).2 = pos

section

variable {o : UInt32 × UInt32}

theorem TailUnsampled.tailSampled_eq (h : TailUnsampled n o) (w : UInt32) :
    tailSampled n o w = 0 := by
  rw [tailSampled, tailSeen_of_le h.six, tailSeen_of_le h.first, tailSeen_of_le h.second,
    shifts_zero, UInt32.xor_self, shifts_zero, UInt32.xor_self]

theorem TailSampledAt.tailSampled_eq {pos : Nat} (h : TailSampledAt n o pos) (w : UInt32) :
    tailSampled n o w = shifts 64 (tailSeen n pos w) := by
  rw [tailSampled, tailSeen_of_le h.six, shifts_zero, UInt32.zero_xor]
  rcases h.seven with ⟨hfirst, hsecond⟩ | ⟨hfirst, hsecond⟩
  · rw [hfirst, tailSeen_of_le hsecond, UInt32.xor_zero]
  · rw [tailSeen_of_le hfirst, hsecond, UInt32.zero_xor]

/-- A change that a sample reads as the last word does is given back by 64 shifts only as one that
each of them gives back. -/
theorem TailSampledAt.tailSampled_eq_self_iff (h : TailSampledAt n o (n - 8)) (w : UInt32) :
    tailSampled n o w = w ↔ w = 0 ∨ w = 0xFCA42DAF := by
  rw [h.tailSampled_eq, tailSeen_last, ← shift_eq_self_iff]
  exact shifts_mul_two_pow_eq_self_iff 1 6 w

/-- A sample that begins three bytes before the last word shows the first byte of a change only, at
its end. The change can be what 64 shifts make of that. -/
theorem TailSampledAt.tailSampled_eq_self (hn : 11 ≤ n) (h : TailSampledAt n o (n - 11)) :
    tailSampled n o 0x3A67B51A = 0x3A67B51A := by
  have hplace : n - 8 - (n - 11) = 3 := by omega
  rw [h.tailSampled_eq, tailSeen, hplace]
  decide +kernel

end

/-! ## Lengths -/

theorem tailUnsampled_of_length (hlong : 128 ≤ n) (hn : n < 2 ^ 64) (ht : t.Built)
    (hmirrored : 4 ≤ n % 16)
    (hclamped : 2 ^ (bucketIndex (n / 16) + 1) + 11 ≤ 2 * (n / 16) + n % 16) :
    TailUnsampled n (longOffsets t n) := by
  obtain ⟨h1, h2⟩ := longOffsets_lt_two_pow hlong hn ht
  constructor
  · rw [samplePositions_six_snd]
    omega
  · rw [samplePositions_seven_fst]
    omega
  · rw [samplePositions_seven_snd]
    omega

/-- For all other lengths there are offsets with which a sample begins three bytes before the last
word. -/
theorem exists_tailSampledAt (hlong : 128 ≤ n) (hn : n < 2 ^ 64)
    (h : ¬ (4 ≤ n % 16 ∧ 2 ^ (bucketIndex (n / 16) + 1) + 11 ≤ 2 * (n / 16) + n % 16)) :
    ∃ t : OffsetTable, t.Built ∧ TailSampledAt n (longOffsets t n) (n - 11) := by
  have hpow : 2 ^ 4 ≤ 2 ^ (bucketIndex (n / 16) + 1) :=
    Nat.pow_le_pow_right (by decide) (Nat.succ_le_succ (undrawnBuckets_le_bucketIndex hlong))
  by_cases hmirrored : n % 16 < 4
  · -- It is the second one, which counts back from the end of the sixteen chunks.
    obtain ⟨t, ht, h1, h2⟩ := exists_longOffsets_eq hlong hn 0 (3 - n % 16) (by omega) (by omega)
    refine ⟨t, ht, ?_, Or.inr ?_⟩
    · rw [samplePositions_six_snd]
      omega
    · rw [samplePositions_seven_fst, samplePositions_seven_snd]
      omega
  · obtain ⟨t, ht, h1, h2⟩ := exists_longOffsets_eq hlong hn (2 * (n / 16) + n % 16 - 11) 4
      (by omega) (by omega)
    refine ⟨t, ht, ?_, Or.inl ?_⟩
    · rw [samplePositions_six_snd]
      omega
    · rw [samplePositions_seven_fst, samplePositions_seven_snd]
      omega

section

variable (hkernel : kernel.Documented)
include hkernel

theorem digest_ne_of_tail (hsize : key'.size = key.size)
    (hhead : ∀ i < key.size - 4, key'[i]? = key[i]?) (hne : key ≠ key') (ht : t.Built)
    (hlong : 128 ≤ key.size) (hkey : key.size < 2 ^ 64) (hmirrored : 4 ≤ key.size % 16)
    (hclamped : 2 ^ (bucketIndex (key.size / 16) + 1) + 11 ≤
      2 * (key.size / 16) + key.size % 16) :
    digest kernel t key ≠ digest kernel t key' := by
  have hunsampled := tailUnsampled_of_length hlong hkey ht hmirrored hclamped
  rw [Ne, digest_eq_iff_tail hsize hhead hkernel ht hlong hkey, hunsampled.tailSampled_eq, eq_comm,
    UInt32.xor_eq_zero_iff]
  exact fun h => hne (eq_of_lastWord_eq hsize hhead (by omega) h).symm

theorem digest_endingIn_eq (ht : t.Built) (hlong : 128 ≤ n) (hn : n < 2 ^ 64) {w : UInt32}
    (h : tailSampled n (longOffsets t n) w = w) :
    digest kernel t (endingIn n 0) = digest kernel t (endingIn n w) := by
  have hsize (w : UInt32) : (endingIn n w).size = n := size_endingIn (by omega) w
  have hhead : ∀ i < (endingIn n 0).size - 4, (endingIn n w)[i]? = (endingIn n 0)[i]? := by
    rw [hsize]
    exact fun i hi => getElem?_endingIn 0 w hi
  rw [digest_eq_iff_tail ((hsize w).trans (hsize 0).symm) hhead hkernel ht (by rwa [hsize])
    (by rwa [hsize]), hsize, lastWord_endingIn (by omega), lastWord_endingIn (by omega),
    UInt32.zero_xor]
  exact h

/-- **When changes of the last four bytes are lost.** Two keys of `n` bytes that differ in their
last four bytes only have the same digest exactly if the samples give back the sum of their last
words. Where the only sample that reaches these bytes is the last word, that is one sum. No two
such keys collide, whatever the table, exactly if sixteen chunks leave over at least four bytes and
a chunk is some bytes larger than the smallest of its bucket. -/
theorem tails_collide_iff (hlong : 128 ≤ n) (hn : n < 2 ^ 64) :
    (∀ (t : OffsetTable) (key key' : Key), t.Built → key.size = n → key'.size = n →
      (∀ i < n - 4, key'[i]? = key[i]?) →
        (digest kernel t key = digest kernel t key' ↔
          tailSampled n (longOffsets t n) (lastWord key ^^^ lastWord key') =
            lastWord key ^^^ lastWord key') ∧
        (TailSampledAt n (longOffsets t n) (n - 8) → key ≠ key' →
          (digest kernel t key = digest kernel t key' ↔
            lastWord key ^^^ lastWord key' = 0xFCA42DAF))) ∧
    ((∀ (t : OffsetTable) (key key' : Key), t.Built → key.size = n → key'.size = n →
      key ≠ key' → (∀ i < n - 4, key'[i]? = key[i]?) →
        digest kernel t key ≠ digest kernel t key') ↔
      4 ≤ n % 16 ∧ 2 ^ (bucketIndex (n / 16) + 1) + 11 ≤ 2 * (n / 16) + n % 16) := by
  refine ⟨?_, ?_⟩
  · rintro t key key' ht rfl hsize hhead
    have hiff := digest_eq_iff_tail hsize hhead hkernel ht hlong hn
    refine ⟨hiff, fun hat hne => ?_⟩
    rw [hiff, hat.tailSampled_eq_self_iff]
    refine or_iff_right fun hzero => hne ?_
    exact (eq_of_lastWord_eq hsize hhead (by omega) (UInt32.xor_eq_zero_iff.1 hzero)).symm
  · constructor
    · intro h
      by_contra hlength
      obtain ⟨t, ht, hat⟩ := exists_tailSampledAt hlong hn hlength
      have hne : endingIn n 0 ≠ endingIn n 0x3A67B51A := endingIn_ne (by omega) (by decide)
      exact h t (endingIn n 0) (endingIn n 0x3A67B51A) ht (size_endingIn (by omega) _)
        (size_endingIn (by omega) _) hne (fun i hi => getElem?_endingIn _ _ hi)
        (digest_endingIn_eq hkernel ht hlong hn (hat.tailSampled_eq_self (by omega)))
    · rintro ⟨hmirrored, hclamped⟩ t key key' ht rfl hsize hne hhead
      exact digest_ne_of_tail hkernel hsize hhead hne ht hlong hn hmirrored hclamped

end

/-- At 128 bytes the table without offsets reads the last word twice. At 1000 bytes no table reads
any of the last four bytes twice. -/
theorem tails_collide_iff_128_and_1000 :
    Kernel.hardware.Documented ∧ (128 : Nat) ≤ 128 ∧ (128 : Nat) < 2 ^ 64 ∧
    (128 : Nat) ≤ 1000 ∧ (1000 : Nat) < 2 ^ 64 ∧ OffsetTable.zero.Built ∧
    TailSampledAt 128 (longOffsets .zero 128) (128 - 8) ∧
    (∀ n, 4 ≤ n → (endingIn n 0).size = n ∧ (endingIn n 0xFCA42DAF).size = n ∧
      endingIn n 0 ≠ endingIn n 0xFCA42DAF ∧
      ∀ i < n - 4, (endingIn n 0xFCA42DAF)[i]? = (endingIn n 0)[i]?) ∧
    digest .hardware .zero (endingIn 128 0) = digest .hardware .zero (endingIn 128 0xFCA42DAF) ∧
    digest .hardware .zero (endingIn 1000 0) ≠
      digest .hardware .zero (endingIn 1000 0xFCA42DAF) := by
  have hdocumented : Kernel.hardware.Documented := Kernel.hardware_documented
  have hat : TailSampledAt 128 (longOffsets .zero 128) (128 - 8) := by
    have hoffsets : longOffsets .zero 128 = (0, 0) := by decide +kernel
    rw [hoffsets]
    exact ⟨by decide, Or.inr ⟨by decide, by decide⟩⟩
  have hkeys : ∀ n, 4 ≤ n → (endingIn n 0).size = n ∧ (endingIn n 0xFCA42DAF).size = n ∧
      endingIn n 0 ≠ endingIn n 0xFCA42DAF ∧
      ∀ i < n - 4, (endingIn n 0xFCA42DAF)[i]? = (endingIn n 0)[i]? := by
    intro n hfour
    exact ⟨size_endingIn hfour _, size_endingIn hfour _, endingIn_ne hfour (by decide),
      fun i hi => getElem?_endingIn _ _ hi⟩
  have hsum : lastWord (endingIn 128 0) ^^^ lastWord (endingIn 128 0xFCA42DAF) = 0xFCA42DAF := by
    rw [lastWord_endingIn (by decide), lastWord_endingIn (by decide)]
    decide
  obtain ⟨hsize, hsize', hne, hhead⟩ := hkeys 128 (by decide)
  obtain ⟨hlarge, hlarge', hne1000, hhead1000⟩ := hkeys 1000 (by decide)
  obtain ⟨hcollide, -⟩ := tails_collide_iff hdocumented (n := 128) (by decide) (by decide)
  obtain ⟨-, hnever⟩ := tails_collide_iff hdocumented (n := 1000) (by decide) (by decide)
  refine ⟨hdocumented, by decide, by decide, by decide, by decide, .zero, hat, hkeys, ?_, ?_⟩
  · exact ((hcollide _ _ _ .zero hsize hsize' hhead).2 hat hne).2 hsum
  · exact hnever.2 ⟨by decide, by decide⟩ _ _ _ .zero hlarge hlarge' hne1000 hhead1000

/-- With the table of seed 154 the mirrored sample of a key of 128 bytes is the last word, so a
change of the last four bytes that shifts leave as it is is lost. -/
theorem tails_collide :
    (OffsetTable.ofSeed 154).Built ∧ (endingIn 128 0).size = 128 ∧
    (endingIn 128 0xFCA42DAF).size = 128 ∧ endingIn 128 0 ≠ endingIn 128 0xFCA42DAF ∧
    (∀ i < 128 - 4, (endingIn 128 0xFCA42DAF)[i]? = (endingIn 128 0)[i]?) ∧
    digest .software (.ofSeed 154) (endingIn 128 0) =
      digest .software (.ofSeed 154) (endingIn 128 0xFCA42DAF) := by
  have hbuilt : (OffsetTable.ofSeed 154).Built := OffsetTable.built_ofSeed 154
  have hat : TailSampledAt 128 (longOffsets (.ofSeed 154) 128) (128 - 8) := by
    have hoffsets : longOffsets (.ofSeed 154) 128 = (2, 0) := by decide +kernel
    rw [hoffsets]
    exact ⟨by decide, Or.inr ⟨by decide, by decide⟩⟩
  exact ⟨hbuilt, size_endingIn (by decide) _, size_endingIn (by decide) _,
    endingIn_ne (by decide) (by decide), fun i hi => getElem?_endingIn _ _ hi,
    digest_endingIn_eq Kernel.software_documented hbuilt (by decide) (by decide)
      ((hat.tailSampled_eq_self_iff _).2 (Or.inr rfl))⟩

end KeyDigest.Banded
