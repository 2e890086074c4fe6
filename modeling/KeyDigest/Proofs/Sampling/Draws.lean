import KeyDigest.Proofs.Sampling.Range

/-!
# How a table is drawn

Two words go into each bucket that is drawn, the first one into the first offset. A scaled bucket
reads one that was filled before it and is not filled again, so the finished table still shows what
each offset was made of: it satisfies one equation for each bucket (`DrawnFrom`). The buckets can
be solved for in order, so the equations determine the table.

The bucket that scales bucket `i` has offsets below `2 ^ (i - w + 1)`, and a draw of `w` bits is
below `2 ^ w`. Their product is in the range of bucket `i`, and neither the multiplication nor the
mask changes it.

**Theorem (`table_of_draws`).** A table is in range, takes 58 words, and depends on their top bits
only.

**Theorem (`scaled_offsets_exact`).** A scaled offset is the product of a draw and its scale.
-/

namespace KeyDigest.Sampling

/-! ## The words of a source -/

namespace WordSource

variable {σ : Type} (source : WordSource σ)

/-- The word that comes after `k` others from state `s` on. -/
def word (k : Nat) (s : σ) : UInt32 := (source.next (source.after k s)).1

theorem getElem?_words {n k : Nat} (h : k < n) (s : σ) :
    (source.words n s)[k]? = some (source.word k s) := by
  induction n generalizing k s with
  | zero => omega
  | succ n ih =>
    cases k with
    | zero => rfl
    | succ k => exact ih (Nat.lt_of_succ_lt_succ h) _

end WordSource

namespace OffsetTable

/-! ## Draws -/

theorem drawWidth_pos (bits : UInt32) : 0 < drawWidth bits := by
  rw [drawWidth]
  omega

theorem drawWidth_le (bits : UInt32) : drawWidth bits ≤ 32 := Nat.min_le_right _ _

/-- The bits of a word that a draw leaves out are its lowest ones. -/
theorem toNat_draw {w : Nat} (hpos : 0 < w) (word : UInt32) :
    (draw w word).toNat = word.toNat / 2 ^ (32 - w) := by
  have hshift : (32 - w).toUInt32.toNat % 32 = 32 - w := by
    rw [Nat.toUInt32_eq, UInt32.toNat_ofNat_of_lt' (by rw [UInt32.size]; omega)]
    omega
  rw [draw, UInt32.toNat_shiftRight, hshift, Nat.shiftRight_eq_div_pow]

theorem toNat_draw_lt {w : Nat} (hpos : 0 < w) (hw : w ≤ 32) (word : UInt32) :
    (draw w word).toNat < 2 ^ w := by
  have hsplit : 2 ^ w * 2 ^ (32 - w) = 2 ^ 32 := by rw [← Nat.pow_add, Nat.add_sub_cancel' hw]
  rw [toNat_draw hpos]
  apply Nat.div_lt_of_lt_mul
  rw [Nat.mul_comm, hsplit]
  exact word.toNat_lt

/-! ## What an offset is made of -/

section

variable {t t' : OffsetTable} {w i : Nat}

theorem ext_offsets (h : ∀ i < bucketCount, t.offsets i.toUInt32 = t'.offsets i.toUInt32) :
    t = t' := by
  have hslot {t : OffsetTable} {i : Nat} (hi : i < bucketCount) :
      t.offsets i.toUInt32 = t.slots[i] := by
    rw [offsets, toNat_bucket hi, Vector.getElem?_eq_getElem hi, Option.getD_some]
  obtain ⟨slots⟩ := t
  obtain ⟨slots'⟩ := t'
  congr 1
  apply Vector.ext
  intro i hi
  simpa only [hslot hi] using h i hi

/-- An offset is scaled by a bucket that comes before its own. -/
theorem slot_congr (hpos : 0 < w) (h : ∀ j < i, t.offsets j.toUInt32 = t'.offsets j.toUInt32)
    (drawn : UInt32) : t.slot w i drawn = t'.slot w i drawn := by
  have hscale : t.scale w i = t'.scale w i := by
    rw [scale, scale]
    split
    · rfl
    · rw [h (i - w) (by omega)]
  rw [slot, slot, hscale]

/-- The table holds what comes of drawing it from the given words, `w` bits of each. -/
structure DrawnFrom (words : Nat → UInt32) (w : Nat) (t : OffsetTable) : Prop where
  undrawn : ∀ i < undrawnBuckets, t.offsets i.toUInt32 = (0, 0)
  drawn : ∀ i, undrawnBuckets ≤ i → i < bucketCount → t.offsets i.toUInt32 =
    (t.slot w i (draw w (words (2 * (i - undrawnBuckets)))),
      t.slot w i (draw w (words (2 * (i - undrawnBuckets) + 1))))

/-- No two tables are drawn from words with the same draws. -/
theorem DrawnFrom.eq {words words' : Nat → UInt32} (hpos : 0 < w) (h : t.DrawnFrom words w)
    (h' : t'.DrawnFrom words' w)
    (hdraws : ∀ k < 2 * drawnBuckets.length, draw w (words k) = draw w (words' k)) : t = t' := by
  have hlength : 2 * drawnBuckets.length = 2 * (bucketCount - undrawnBuckets) := rfl
  apply ext_offsets
  intro i
  -- The buckets before `i` agree, and the equation of bucket `i` reads no others.
  induction i using Nat.strongRecOn with
  | ind i ih =>
    intro hi
    by_cases hundrawn : i < undrawnBuckets
    · rw [h.undrawn i hundrawn, h'.undrawn i hundrawn]
    · have hbefore : ∀ j < i, t.offsets j.toUInt32 = t'.offsets j.toUInt32 :=
        fun j hj => ih j hj (hj.trans hi)
      rw [h.drawn i (by omega) hi, h'.drawn i (by omega) hi, hdraws _ (by omega),
        hdraws _ (by omega), slot_congr hpos hbefore, slot_congr hpos hbefore]

end

/-! ## Filling a table -/

section

variable {σ : Type} (source : WordSource σ) (w : Nat)

/-- Two words for each bucket. -/
theorem snd_fill (buckets : List Nat) (t : OffsetTable) (s : σ) :
    (fill source w buckets t s).2 = source.after (2 * buckets.length) s := by
  induction buckets generalizing t s with
  | nil => rfl
  | cons bucket rest ih => exact ih _ _

theorem fill_range'_succ (a n : Nat) (t : OffsetTable) (s : σ) :
    fill source w (List.range' a (n + 1)) t s =
      fill source w (List.range' (a + 1) n)
        (t.setBucket w a (source.word 0 s) (source.word 1 s)) (source.after 2 s) := rfl

/-- Buckets before those that are filled stay as they are. -/
theorem offsets_fill_of_lt {a n i : Nat} (hi : i < bucketCount) (h : i < a) (t : OffsetTable)
    (s : σ) : (fill source w (List.range' a n) t s).1.offsets i.toUInt32 =
      t.offsets i.toUInt32 := by
  induction n generalizing a t s with
  | zero => rfl
  | succ n ih => rw [fill_range'_succ, ih (by omega), offsets_setBucket hi, if_neg (by omega)]

/-- In the filled table, the offsets of a bucket are made of the two words at its place. -/
theorem offsets_fill {a n i : Nat} (hpos : 0 < w) (hend : a + n ≤ bucketCount) (hle : a ≤ i)
    (hlt : i < a + n) (t : OffsetTable) (s : σ) :
    (fill source w (List.range' a n) t s).1.offsets i.toUInt32 =
      ((fill source w (List.range' a n) t s).1.slot w i (draw w (source.word (2 * (i - a)) s)),
        (fill source w (List.range' a n) t s).1.slot w i
          (draw w (source.word (2 * (i - a) + 1) s))) := by
  induction n generalizing a t s with
  | zero => omega
  | succ n ih =>
    rcases Nat.eq_or_lt_of_le hle with rfl | hnext
    · have hbefore : ∀ j < a, t.offsets j.toUInt32 =
          (fill source w (List.range' a (n + 1)) t s).1.offsets j.toUInt32 :=
        fun j hj => (offsets_fill_of_lt source w (by omega) hj t s).symm
      rw [← slot_congr hpos hbefore, ← slot_congr hpos hbefore, fill_range'_succ,
        offsets_fill_of_lt source w (by omega) (Nat.lt_succ_self a), offsets_setBucket (by omega),
        if_pos rfl, Nat.sub_self]
    · have hplace : 2 * (i - a) = 2 * (i - (a + 1)) + 2 := by omega
      rw [fill_range'_succ, hplace]
      exact ih (by omega) hnext (by omega) _ _

end

/-! ## Drawn tables -/

section

variable {σ : Type} (source : WordSource σ) (bits : UInt32) (s : σ)

theorem drawnFrom_ofSource :
    (ofSource source bits s).1.DrawnFrom (source.word · s) (drawWidth bits) where
  undrawn i hi := by
    rw [ofSource, drawnBuckets, offsets_fill_of_lt _ _ (hi.trans (by decide)) hi, offsets,
      toNat_bucket (hi.trans (by decide)), zero, Vector.getElem?_replicate]
    split <;> rfl
  drawn i hdrawn hi := offsets_fill source _ (drawWidth_pos bits) (Nat.le_refl _) hdrawn hi zero s

/-- The two words of a bucket that is drawn. -/
theorem getElem?_words_bucket {i : Nat} (hi : i < bucketCount) :
    (source.words 58 s)[2 * (i - 3)]? = some (source.word (2 * (i - 3)) s) ∧
      (source.words 58 s)[2 * (i - 3) + 1]? = some (source.word (2 * (i - 3) + 1) s) := by
  rw [bucketCount] at hi
  exact ⟨source.getElem?_words (by omega) s, source.getElem?_words (by omega) s⟩

/-- **What a table is drawn from.** Whatever the source and the width, both offsets of bucket `i`
are below `2 ^ (i + 1)`, the first three buckets are zero, and 58 words are taken, two for each of
the other buckets in turn. The table depends on the top `w` bits of these words only, where `w` is
the width of a draw. -/
theorem table_of_draws :
    (∀ i < bucketCount, ((ofSource source bits s).1.offsets i.toUInt32).1.toNat < 2 ^ (i + 1) ∧
      ((ofSource source bits s).1.offsets i.toUInt32).2.toNat < 2 ^ (i + 1)) ∧
    (∀ i < 3, (ofSource source bits s).1.offsets i.toUInt32 = (0, 0)) ∧
    (ofSource source bits s).2 = source.after 58 s ∧
    (∀ i, 3 ≤ i → i < bucketCount → ∃ first second,
      (source.words 58 s)[2 * (i - 3)]? = some first ∧
      (source.words 58 s)[2 * (i - 3) + 1]? = some second ∧
      (ofSource source bits s).1.offsets i.toUInt32 =
        ((ofSource source bits s).1.slot (drawWidth bits) i (draw (drawWidth bits) first),
          (ofSource source bits s).1.slot (drawWidth bits) i (draw (drawWidth bits) second))) ∧
    ∀ {σ' : Type} (source' : WordSource σ') (s' : σ'),
      (source.words 58 s).map (·.toNat / 2 ^ (32 - drawWidth bits)) =
        (source'.words 58 s').map (·.toNat / 2 ^ (32 - drawWidth bits)) →
      (ofSource source bits s).1 = (ofSource source' bits s').1 := by
  have hdrawn := drawnFrom_ofSource source bits s
  have hpos := drawWidth_pos bits
  refine ⟨inRange_iff.1 (Built.drawn source bits s).inRange, hdrawn.undrawn,
    snd_fill source _ _ zero s, ?_, ?_⟩
  · intro i hle hi
    obtain ⟨hfirst, hsecond⟩ := getElem?_words_bucket source s hi
    exact ⟨_, _, hfirst, hsecond, hdrawn.drawn i hle hi⟩
  · intro σ' source' s' htop
    refine hdrawn.eq hpos (drawnFrom_ofSource source' bits s') fun k hk => ?_
    have hk : k < 58 := hk
    have hword := congrArg (fun l : List Nat => l[k]?) htop
    simp only [List.getElem?_map, WordSource.getElem?_words _ hk, Option.map_some,
      Option.some_inj] at hword
    apply UInt32.toNat_inj.1
    rw [toNat_draw hpos, toNat_draw hpos, hword]

end

/-- Five bits wide, ones and thirties cannot be told apart. The state of this source counts. -/
theorem table_of_draws_five_bits :
    ((ofSource (.cycle #[0xFFFFFFFF, 0x08000000]) 5 0).1.offsets (31 : Nat).toUInt32).1.toNat <
      2 ^ 32 ∧
    (ofSource (.cycle #[0xFFFFFFFF, 0x08000000]) 5 0).1.offsets (2 : Nat).toUInt32 = (0, 0) ∧
    (ofSource (.cycle #[0xFFFFFFFF, 0x08000000]) 5 0).2 = 58 ∧
    (ofSource (.cycle #[0xFFFFFFFF, 0x08000000]) 5 0).1 =
      (ofSource (.cycle #[0xF8000000, 0x0FFFFFFF]) 5 0).1 := by
  obtain ⟨hrange, hundrawn, hstate, -, htop⟩ :=
    table_of_draws (.cycle #[0xFFFFFFFF, 0x08000000]) 5 0
  refine ⟨(hrange 31 (by decide)).1, hundrawn 2 (by decide), ?_, htop _ _ (by decide)⟩
  rw [hstate, WordSource.after_cycle]

/-! ## Scaled draws -/

section

variable {t : OffsetTable} {w i : Nat} (ht : t.inRange) (hle : w ≤ i) (hi : i < bucketCount)

/-- What a draw for bucket `i` is multiplied by, if that bucket is too wide for one draw. -/
def narrowOffset (t : OffsetTable) (w i : Nat) : UInt32 :=
  if (t.offsets (i - w).toUInt32).1 = 0 then 1 else (t.offsets (i - w).toUInt32).1

include hle in
theorem scale_of_le : t.scale w i = t.narrowOffset w i := if_neg (Nat.not_lt.2 hle)

include ht hi in
theorem toNat_narrowOffset_lt : (t.narrowOffset w i).toNat < 2 ^ (i - w + 1) := by
  rw [narrowOffset]
  split
  · exact Nat.one_lt_two_pow (Nat.succ_ne_zero _)
  · exact (inRange_iff.1 ht (i - w) (by omega)).1

variable (hpos : 0 < w)
include ht hle hi hpos

/-- The product fits into the range of its bucket. -/
theorem toNat_draw_mul_lt (word : UInt32) :
    (draw w word).toNat * (t.narrowOffset w i).toNat < 2 ^ (i + 1) := by
  have hw : w ≤ 32 := hle.trans hi.le
  have hsplit : 2 ^ w * 2 ^ (i - w + 1) = 2 ^ (i + 1) := by
    rw [← Nat.pow_add, ← Nat.add_assoc, Nat.add_sub_cancel' hle]
  rw [← hsplit]
  exact Nat.mul_lt_mul'' (toNat_draw_lt hpos hw word) (toNat_narrowOffset_lt ht hi)

theorem toNat_draw_mul (word : UInt32) :
    (draw w word * t.narrowOffset w i).toNat =
      (draw w word).toNat * (t.narrowOffset w i).toNat := by
  have hword : 2 ^ (i + 1) ≤ 2 ^ 32 := Nat.pow_le_pow_right (by decide) hi
  rw [UInt32.toNat_mul, Nat.mod_eq_of_lt ((toNat_draw_mul_lt ht hle hi hpos word).trans_le hword)]

theorem draw_mul_and_bucketMask (word : UInt32) :
    draw w word * t.narrowOffset w i &&& bucketMask i.toUInt32 =
      draw w word * t.narrowOffset w i := by
  apply UInt32.toNat_inj.1
  apply toNat_and_bucketMask hi
  rw [toNat_draw_mul ht hle hi hpos]
  exact toNat_draw_mul_lt ht hle hi hpos word

theorem toNat_slot_draw (word : UInt32) :
    (t.slot w i (draw w word)).toNat = (draw w word).toNat * (t.narrowOffset w i).toNat := by
  rw [slot, scale_of_le hle, draw_mul_and_bucketMask ht hle hi hpos, toNat_draw_mul ht hle hi hpos]

end

/-- The buckets just wider than a draw are scaled by buckets that hold zeros. -/
theorem DrawnFrom.offsets_lt {t : OffsetTable} {words : Nat → UInt32} {w i : Nat}
    (h : t.DrawnFrom words w) (ht : t.inRange) (hpos : 0 < w) (hle : w ≤ i) (hnear : i ≤ w + 2)
    (hi : i < bucketCount) :
    (t.offsets i.toUInt32).1.toNat < 2 ^ w ∧ (t.offsets i.toUInt32).2.toNat < 2 ^ w := by
  by_cases hundrawn : i < undrawnBuckets
  · rw [h.undrawn i hundrawn]
    exact ⟨Nat.two_pow_pos w, Nat.two_pow_pos w⟩
  · have hscale : t.narrowOffset w i = 1 := by
      rw [narrowOffset, h.undrawn (i - w) (by rw [undrawnBuckets]; omega), if_pos rfl]
    have hslot (word : UInt32) : (t.slot w i (draw w word)).toNat < 2 ^ w := by
      rw [toNat_slot_draw ht hle hi hpos, hscale]
      exact (Nat.mul_one _).trans_lt (toNat_draw_lt hpos (hle.trans hi.le) word)
    rw [h.drawn i (by omega) hi]
    exact ⟨hslot _, hslot _⟩

/-- **Scaled draws are exact products.** In a bucket `i` that is no narrower than a draw of `w`
bits, each offset is the product of a draw, which is below `2 ^ w`, and the first offset of bucket
`i - w`, or one if that is zero. The product of these does not wrap and the mask leaves it alone,
whatever is drawn. So the offsets of the first three such buckets stay below `2 ^ w`, and those of
the last bucket of a seed below `2 ^ 31`. -/
theorem scaled_offsets_exact {σ : Type} (source : WordSource σ) (bits : UInt32) (s : σ) :
    let t := (ofSource source bits s).1
    let w := drawWidth bits
    (∀ i, 3 ≤ i → i < bucketCount → w ≤ i →
      let scale := if (t.offsets (i - w).toUInt32).1 = 0 then 1 else (t.offsets (i - w).toUInt32).1
      (∀ word, (draw w word).toNat < 2 ^ w ∧
        (draw w word * scale).toNat = (draw w word).toNat * scale.toNat ∧
        draw w word * scale &&& bucketMask i.toUInt32 = draw w word * scale) ∧
      ∃ first second, (source.words 58 s)[2 * (i - 3)]? = some first ∧
        (source.words 58 s)[2 * (i - 3) + 1]? = some second ∧
        (t.offsets i.toUInt32).1.toNat = (draw w first).toNat * scale.toNat ∧
        (t.offsets i.toUInt32).2.toNat = (draw w second).toNat * scale.toNat) ∧
    (∀ i, w ≤ i → i ≤ w + 2 → i < bucketCount →
      (t.offsets i.toUInt32).1.toNat < 2 ^ w ∧ (t.offsets i.toUInt32).2.toNat < 2 ^ w) ∧
    ∀ seed, ((ofSeed seed).offsets 31).1.toNat < 2 ^ 31 ∧
      ((ofSeed seed).offsets 31).2.toNat < 2 ^ 31 := by
  intro t w
  have hdrawn : t.DrawnFrom (source.word · s) w := drawnFrom_ofSource source bits s
  have ht : t.inRange := (Built.drawn source bits s).inRange
  have hpos : 0 < w := drawWidth_pos bits
  refine ⟨?_, ?_, ?_⟩
  · intro i hthree hi hle scale
    obtain ⟨hfirst, hsecond⟩ := getElem?_words_bucket source s hi
    constructor
    · intro word
      exact ⟨toNat_draw_lt hpos (drawWidth_le bits) word, toNat_draw_mul ht hle hi hpos word,
        draw_mul_and_bucketMask ht hle hi hpos word⟩
    · refine ⟨_, _, hfirst, hsecond, ?_⟩
      rw [hdrawn.drawn i hthree hi]
      exact ⟨toNat_slot_draw ht hle hi hpos _, toNat_slot_draw ht hle hi hpos _⟩
  · intro i hle hnear hi
    exact hdrawn.offsets_lt ht hpos hle hnear hi
  · intro seed
    exact (drawnFrom_ofSource Xoshiro256.source drawBits _).offsets_lt (built_ofSeed seed).inRange
      (by decide) (by decide) (by decide) (by decide)

/-- Two bits wide, every other bucket from 3 to 31 is scaled by the one before, three times as large
each time. -/
theorem scaled_offsets_exact_two_bits :
    let t := (ofSource (.cycle #[0xFFFFFFFF]) 2 0).1
    3 ≤ 31 ∧ 31 < bucketCount ∧ drawWidth 2 ≤ 31 ∧ drawWidth 2 ≤ 4 ∧ 4 ≤ drawWidth 2 + 2 ∧
    (t.offsets (29 : Nat).toUInt32).1 = 3 ^ 14 ∧
    (t.offsets (31 : Nat).toUInt32).1.toNat = 3 * 3 ^ 14 ∧
    (t.offsets (4 : Nat).toUInt32).1.toNat < 2 ^ 2 := by
  intro t
  obtain ⟨hexact, hnear, -⟩ := scaled_offsets_exact (.cycle #[0xFFFFFFFF]) 2 0
  obtain ⟨-, first, second, hfirst, -, hproduct, -⟩ :=
    hexact 31 (by decide) (by decide) (by decide)
  have hnarrow : (t.offsets (29 : Nat).toUInt32).1 = 3 ^ 14 := by decide +kernel
  have hword : first = 0xFFFFFFFF := (Option.some.inj hfirst).symm
  subst hword
  refine ⟨by decide, by decide, by decide, by decide, by decide, hnarrow, ?_,
    (hnear 4 (by decide) (by decide) (by decide)).1⟩
  have hwidth : 31 - drawWidth 2 = 29 := rfl
  rw [hproduct, hwidth, hnarrow]
  decide

end OffsetTable

end KeyDigest.Sampling
