import Mathlib
import KeyDigest.Sampling.OffsetTable

/-!
# The range of the offsets

An offset is cut to the range of its bucket when it is made, so no table leaves the range, whatever
the source and the width it is drawn with. All of the range is used: words of full width are only
cut, so a source can be found for any two offsets in range.

* `Built.inRange`: every table that can be built is in range.
* `offsets_repeating`: the offsets drawn from a source that repeats two words.
-/

namespace KeyDigest.Sampling

theorem toNat_bucketMask {i : Nat} (hi : i < bucketCount) :
    (bucketMask i.toUInt32).toNat = 2 ^ (i + 1) - 1 := by
  have hall : ∀ i < bucketCount, (bucketMask i.toUInt32).toNat = 2 ^ (i + 1) - 1 := by decide
  exact hall i hi

theorem le_bucketMask_iff {i : Nat} (hi : i < bucketCount) (o : UInt32) :
    o ≤ bucketMask i.toUInt32 ↔ o.toNat < 2 ^ (i + 1) := by
  have hpos : 0 < 2 ^ (i + 1) := Nat.two_pow_pos _
  rw [UInt32.le_iff_toNat_le, toNat_bucketMask hi]
  omega

theorem toNat_bucket {i : Nat} (hi : i < bucketCount) : i.toUInt32.toNat = i :=
  UInt32.toNat_ofNat_of_lt' (hi.trans (by decide))

namespace OffsetTable

/-- The tables that can be built: the one without offsets, and those drawn from a source. -/
inductive Built : OffsetTable → Prop
  | zero : Built zero
  | drawn {σ : Type} (source : WordSource σ) (bits : UInt32) (s : σ) :
      Built (ofSource source bits s).1

theorem built_ofSeed (seed : UInt32) : Built (ofSeed seed) :=
  .drawn Xoshiro256.source drawBits _

/-! ## Buckets -/

theorem inRange_iff {t : OffsetTable} :
    t.inRange ↔ ∀ i < bucketCount,
      (t.offsets i.toUInt32).1.toNat < 2 ^ (i + 1) ∧
        (t.offsets i.toUInt32).2.toNat < 2 ^ (i + 1) := by
  rw [inRange, List.all_eq_true]
  constructor
  · intro h i hi
    have hle := h i (List.mem_range.2 hi)
    rw [Bool.and_eq_true, decide_eq_true_iff, decide_eq_true_iff] at hle
    exact ⟨(le_bucketMask_iff hi _).1 hle.1, (le_bucketMask_iff hi _).1 hle.2⟩
  · intro h i hi
    have hlt : i < bucketCount := List.mem_range.1 hi
    rw [Bool.and_eq_true, decide_eq_true_iff, decide_eq_true_iff]
    exact ⟨(le_bucketMask_iff hlt _).2 (h i hlt).1, (le_bucketMask_iff hlt _).2 (h i hlt).2⟩

theorem offsets_setBucket {t : OffsetTable} {bucket i : Nat} (hi : i < bucketCount) (width : Nat)
    (first second : UInt32) :
    (t.setBucket width bucket first second).offsets i.toUInt32 =
      if bucket = i then
        (t.slot width bucket (draw width first), t.slot width bucket (draw width second))
      else t.offsets i.toUInt32 := by
  rw [offsets, offsets, setBucket, toNat_bucket hi, Vector.getElem?_setIfInBounds]
  split
  · next heq => rw [if_pos (heq ▸ hi), Option.getD_some]
  · rfl

theorem slot_lt (t : OffsetTable) (width : Nat) {bucket : Nat} (h : bucket < bucketCount)
    (drawn : UInt32) : (t.slot width bucket drawn).toNat < 2 ^ (bucket + 1) := by
  rw [← le_bucketMask_iff h, UInt32.le_iff_toNat_le, slot, UInt32.toNat_and]
  exact Nat.and_le_right

/-! ## Drawn tables -/

theorem inRange_zero : zero.inRange := by decide

theorem inRange_setBucket {t : OffsetTable} (h : t.inRange) (width bucket : Nat)
    (first second : UInt32) : (t.setBucket width bucket first second).inRange := by
  rw [inRange_iff] at h ⊢
  intro i hi
  rw [offsets_setBucket hi]
  split
  · next heq =>
    subst heq
    exact ⟨slot_lt t width hi _, slot_lt t width hi _⟩
  · exact h i hi

theorem inRange_fill {σ : Type} (source : WordSource σ) (width : Nat) (buckets : List Nat)
    {t : OffsetTable} (h : t.inRange) (s : σ) :
    (fill source width buckets t s).1.inRange := by
  induction buckets generalizing t s with
  | nil => exact h
  | cons bucket rest ih => exact ih (inRange_setBucket h width bucket _ _) _

/-- **No table leaves the range.** -/
theorem Built.inRange {t : OffsetTable} (h : t.Built) : t.inRange := by
  cases h with
  | zero => exact inRange_zero
  | drawn source bits s => exact inRange_fill source _ _ inRange_zero s

/-! ## Any two offsets -/

/-- A source that gives two words in turn. -/
def alternating (first second : UInt32) : WordSource Bool where
  next turn := (if turn then second else first, !turn)

/-- The table drawn at full width from a source that gives two words in turn. -/
def repeating (first second : UInt32) : OffsetTable :=
  (ofSource (alternating first second) 32 false).1

theorem built_repeating (first second : UInt32) : Built (repeating first second) :=
  .drawn (alternating first second) 32 false

theorem slot_draw (t : OffsetTable) {bucket : Nat} (h : bucket < bucketCount) (word : UInt32) :
    t.slot 32 bucket (draw 32 word) = word &&& bucketMask bucket.toUInt32 := by
  have hwidth : bucket < 32 := h
  rw [slot, scale, if_pos hwidth, UInt32.mul_one]
  exact congrArg (· &&& _) UInt32.shiftRight_zero

theorem offsets_fill_alternating (first second : UInt32) {i : Nat} (hi : i < bucketCount)
    (buckets : List Nat) (t : OffsetTable) :
    (fill (alternating first second) 32 buckets t false).1.offsets i.toUInt32 =
      if i ∈ buckets then (first &&& bucketMask i.toUInt32, second &&& bucketMask i.toUInt32)
      else t.offsets i.toUInt32 := by
  induction buckets generalizing t with
  | nil => rfl
  | cons bucket rest ih =>
    -- After the two words of a bucket the source is where it was.
    have hfill : fill (alternating first second) 32 (bucket :: rest) t false =
        fill (alternating first second) 32 rest (t.setBucket 32 bucket first second) false := rfl
    rw [hfill, ih, offsets_setBucket hi]
    by_cases hmem : i ∈ rest
    · rw [if_pos hmem, if_pos (List.mem_cons_of_mem bucket hmem)]
    · rw [if_neg hmem]
      by_cases heq : bucket = i
      · subst heq
        rw [if_pos rfl, if_pos (List.mem_cons_self ..), slot_draw t hi, slot_draw t hi]
      · have hnot : i ∉ bucket :: rest := List.not_mem_cons_of_ne_of_not_mem (Ne.symm heq) hmem
        rw [if_neg heq, if_neg hnot]

theorem offsets_repeating (first second : UInt32) {i : Nat} (hdrawn : undrawnBuckets ≤ i)
    (hi : i < bucketCount) :
    (repeating first second).offsets i.toUInt32 =
      (first &&& bucketMask i.toUInt32, second &&& bucketMask i.toUInt32) := by
  have hall : undrawnBuckets + (bucketCount - undrawnBuckets) = bucketCount := rfl
  have hmem : i ∈ drawnBuckets := List.mem_range'_1.2 ⟨hdrawn, by rwa [hall]⟩
  exact (offsets_fill_alternating first second hi drawnBuckets zero).trans (if_pos hmem)

theorem toNat_and_bucketMask {i : Nat} (hi : i < bucketCount) (o : UInt32)
    (h : o.toNat < 2 ^ (i + 1)) : (o &&& bucketMask i.toUInt32).toNat = o.toNat := by
  rw [UInt32.toNat_and, toNat_bucketMask hi, Nat.and_two_pow_sub_one_eq_mod, Nat.mod_eq_of_lt h]

end OffsetTable

end KeyDigest.Sampling
