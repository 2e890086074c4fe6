import KeyDigest.Proofs.Hasher.Kernels
import KeyDigest.Proofs.Banded.Formula

/-!
# The two lanes of a long key are one

The lanes of a long key take in the same number of words and meet in one last fold, which sees only
their sum. Folding is linear, so the sum of the lanes is itself a lane, and the words that it takes
in are the sums of the words of the two.

**Theorem (`long_digest_collapses`).** The digest of a long key is that of the one lane. It depends
on the content of the key through nine sums only. Where all bytes of the key are equal the sums
vanish, so such keys of one length collide, whatever the byte and the table, and do not collide
with those of another length modulo `2 ^ 32`.
-/

namespace KeyDigest.Banded

open Crc Sampling

/-! ## One lane for two -/

def Lanes.sum (l : Lanes) : UInt32 := l.first ^^^ l.second

theorem sum_foldWords (l : Lanes) (v : UInt64 × UInt64) :
    (l.foldWords .software v).sum = Kernel.software.fold64 l.sum (v.1 ^^^ v.2) :=
  (fold64_xor l.first l.second v.1 v.2).symm

theorem sum_foldl (vs : List (UInt64 × UInt64)) (l : Lanes) :
    (vs.foldl (Lanes.foldWords .software) l).sum =
      (vs.map fun v => v.1 ^^^ v.2).foldl Kernel.software.fold64 l.sum := by
  induction vs generalizing l with
  | nil => rfl
  | cons v vs ih => rw [List.foldl_cons, ih, sum_foldWords, List.map_cons, List.foldl_cons]

/-- The nine words of the one lane: the sums of the samples of each pair of chunks, and of the first
and the last word. -/
def longSums (key : Key) (o : UInt32 × UInt32) : List UInt64 :=
  (longWords key o).map fun v => v.1 ^^^ v.2

/-- The digest of a key of length `n` modulo `2 ^ 32`, made in one lane. -/
def laneDigest (kernel : Kernel) (n : UInt32) (words : List UInt64) : UInt32 :=
  kernel.fold32 (words.foldl kernel.fold64 (kernel.fold32 0 n)) 0

theorem longDigest_eq_laneDigest (t : OffsetTable) (key : Key) :
    longDigest .software t key =
      laneDigest .software (.ofNat key.size) (longSums key (longOffsets t key.size)) := by
  have hsum := sum_foldl (longWords key (longOffsets t key.size))
    ⟨Kernel.software.fold32 0 (.ofNat key.size), 0⟩
  rw [longDigest, longLanes, fold32_eq_fold32_zero]
  rw [Lanes.sum, Lanes.sum, UInt32.xor_zero] at hsum
  rw [hsum, laneDigest, longSums]

/-! ## Keys of equal bytes -/

theorem word64At_replicate {n p : Nat} (h : p + 8 ≤ n) (b : UInt8) :
    Key.word64At (Array.replicate n b) p = LittleEndian.word64 (List.replicate 8 b) := by
  have hsize : p + 8 ≤ (Array.replicate n b).size := by rwa [Array.size_replicate]
  have hmin : min (p + 8) n - p = 8 := by omega
  rw [Key.word64At, Key.word64?, Key.window?, if_pos hsize, Array.extract_replicate, hmin,
    Array.toList_replicate, Option.map_some, Option.getD_some]

/-- No sample reaches beyond the last word, so all words are alike and each sum is zero. -/
theorem longSums_replicate {n : Nat} (h : 8 ≤ n) (b : UInt8) (o : UInt32 × UInt32) :
    longSums (Array.replicate n b) o = List.replicate 9 0 := by
  have hsample (p : Nat) : (sampleWords (Array.replicate n b) o p).1 ^^^
      (sampleWords (Array.replicate n b) o p).2 = 0 := by
    have hfirst : (samplePositions n o p).1 ≤ n - 8 := Nat.min_le_right _ _
    have hsecond : (samplePositions n o p).2 ≤ n - 8 := Nat.min_le_right _ _
    rw [sampleWords, Array.size_replicate, word64At_replicate (by omega),
      word64At_replicate (by omega), UInt64.xor_self]
  have hends : Key.word64At (Array.replicate n b) 0 ^^^ Key.word64At (Array.replicate n b) (n - 8) =
      0 := by
    rw [word64At_replicate (by omega), word64At_replicate (by omega), UInt64.xor_self]
  rw [longSums, longWords, Array.size_replicate, List.map_append, List.map_map]
  simp only [Function.comp_def, hsample, List.map_cons, hends, List.map_nil, List.map_const']
  rfl

theorem laneDigest_injective (words : List UInt64) :
    Function.Injective fun n => laneDigest .software n words := by
  have hlane : Function.Injective fun r => words.foldl Kernel.software.fold64 r := by
    induction words with
    | nil => exact fun _ _ h => h
    | cons w words ih =>
      intro r r' h
      exact fold64_injective_register w (ih h)
  intro n n' h
  -- Into a zero register the length goes as the register itself.
  have hlength := hlane (fold32_injective_register 0 h)
  rw [fold32_eq_fold32_zero, fold32_eq_fold32_zero 0 n'] at hlength
  simpa using fold32_injective_register 0 hlength

/-! ## Both kernels -/

theorem laneDigest_congr {k k' : Kernel} (h : k.Agree k') (n : UInt32) (words : List UInt64) :
    laneDigest k n words = laneDigest k' n words := by
  have h32 : k.fold32 = k'.fold32 := funext fun r => funext (h.fold32 r)
  have h64 : k.fold64 = k'.fold64 := funext fun r => funext (h.fold64 r)
  rw [laneDigest, laneDigest, h32, h64]

theorem agree_software {kernel : Kernel} (h : kernel ∈ [Kernel.software, .hardware]) :
    kernel.Agree .software := by
  rcases List.mem_pair.1 h with rfl | rfl
  · exact ⟨fun _ _ => rfl, fun _ _ => rfl⟩
  · exact Kernel.hardware_agree_software

theorem digest_eq_laneDigest {kernel : Kernel} (h : kernel.Agree .software) {key : Key}
    (hlong : 128 ≤ key.size) (hkey : key.size < 2 ^ 64) (t : OffsetTable) :
    digest kernel t key =
      laneDigest kernel (.ofNat key.size) (longSums key (longOffsets t key.size)) := by
  rw [digest_congr h, digest_of_long hlong hkey, longDigest_eq_laneDigest, laneDigest_congr h]

/-- **The lanes of a long key collapse to one.** On either kernel, the digest of a key of `n` bytes,
`n` at least 128, is made by folding nine sums into the register of the length, and then zero. Keys
of one length with equal sums have equal digests. The digest of a key of equal bytes is an injective
function of its length modulo `2 ^ 32`, whatever the byte and the table. -/
theorem long_digest_collapses :
    (∀ kernel ∈ [Kernel.software, .hardware], ∀ (t : OffsetTable) (key : Key),
      128 ≤ key.size → key.size < 2 ^ 64 →
        digest kernel t key =
          kernel.fold32 ((longSums key (longOffsets t key.size)).foldl kernel.fold64
            (kernel.fold32 0 (.ofNat key.size))) 0) ∧
    (∀ kernel ∈ [Kernel.software, .hardware], ∀ (t t' : OffsetTable) (key key' : Key),
      128 ≤ key.size → key.size < 2 ^ 64 → key'.size = key.size →
        longSums key (longOffsets t key.size) = longSums key' (longOffsets t' key.size) →
          digest kernel t key = digest kernel t' key') ∧
    ∃ D : UInt32 → UInt32, Function.Injective D ∧
      ∀ kernel ∈ [Kernel.software, .hardware], ∀ (t : OffsetTable) (n : Nat) (b : UInt8),
        128 ≤ n → n < 2 ^ 64 → digest kernel t (Array.replicate n b) = D (.ofNat n) := by
  refine ⟨?_, ?_, fun n => laneDigest .software n (List.replicate 9 0), laneDigest_injective _, ?_⟩
  · intro kernel hmem t key hlong hkey
    exact digest_eq_laneDigest (agree_software hmem) hlong hkey t
  · intro kernel hmem t t' key key' hlong hkey hsize hsums
    rw [digest_eq_laneDigest (agree_software hmem) hlong hkey,
      digest_eq_laneDigest (agree_software hmem) (by omega) (by omega), hsize, hsums]
  · intro kernel hmem t n b hlong hkey
    have hsize : (Array.replicate n b : Key).size = n := Array.size_replicate
    rw [digest_eq_laneDigest (agree_software hmem) (by omega) (by omega), hsize,
      longSums_replicate (by omega), laneDigest_congr (agree_software hmem)]

/-- Two keys of 200 equal bytes collide, and a key of 201 bytes does not collide with them. -/
theorem long_digest_collapses_200 :
    Kernel.hardware ∈ [Kernel.software, .hardware] ∧
    128 ≤ (Array.replicate 200 7 : Key).size ∧ (Array.replicate 200 7 : Key).size < 2 ^ 64 ∧
    digest .hardware .zero (Array.replicate 200 7) =
      Kernel.hardware.fold32 ((longSums (Array.replicate 200 7)
        (longOffsets .zero (Array.replicate 200 7 : Key).size)).foldl Kernel.hardware.fold64
          (Kernel.hardware.fold32 0 (.ofNat (Array.replicate 200 7 : Key).size))) 0 ∧
    digest .hardware .zero (Array.replicate 200 7) =
      digest .hardware .zero (Array.replicate 200 9) ∧
    digest .hardware .zero (Array.replicate 200 7) ≠
      digest .hardware .zero (Array.replicate 201 7) := by
  have hsize (b : UInt8) : (Array.replicate 200 b : Key).size = 200 := Array.size_replicate
  have hmem : Kernel.hardware ∈ [Kernel.software, .hardware] := List.mem_pair.2 (Or.inr rfl)
  have hlong : 128 ≤ (Array.replicate 200 7 : Key).size := by rw [hsize]; decide
  have hkey : (Array.replicate 200 7 : Key).size < 2 ^ 64 := by rw [hsize]; decide
  have hsums (b : UInt8) (o : UInt32 × UInt32) :
      longSums (Array.replicate 200 b) o = List.replicate 9 0 :=
    longSums_replicate (by decide) b o
  obtain ⟨hlane, hcollide, D, hinjective, hequal⟩ := long_digest_collapses
  refine ⟨hmem, hlong, hkey, hlane _ hmem _ _ hlong hkey,
    hcollide _ hmem _ _ _ _ hlong hkey ((hsize 9).trans (hsize 7).symm)
      ((hsums 7 _).trans (hsums 9 _).symm), fun h => ?_⟩
  rw [hequal _ hmem _ _ _ (by decide) (by decide), hequal _ hmem _ _ _ (by decide) (by decide)] at h
  exact absurd (hinjective h) (by decide)

end KeyDigest.Banded
