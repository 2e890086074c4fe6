import KeyDigest.Proofs.Text.Spelling
import KeyDigest.Settings.Seed

/-!
# The grammar of a seed

A text gives a seed if and only if it is written by a grammar: blanks around it, perhaps the mark of
base sixteen, perhaps one plus sign, and then digits of a number below `2 ^ 32`.

* `Marked`: the mark of the base.
* `Writes`: the whole text but for the blanks around it, which writes one number at most
  (`Writes.unique`).
* `ofText?_eq_some_iff`, `ofText?_eq_none_iff`: what the parser accepts.

**Theorem (`accepts_exactly_its_grammar`).** The parser accepts the texts of the grammar and no
others; in particular it reads back every number, however it is written.
-/

namespace KeyDigest.Seed

open Text

/-! ## The grammar -/

/-- `r` follows the mark of the base in the text, which is `0x` or `0X` for sixteen and nothing for
ten. -/
inductive Marked : List Char → Nat → List Char → Prop
  | hexadecimal (x : Char) (r : List Char) : x = 'x' ∨ x = 'X' → Marked ('0' :: x :: r) 16 r
  | decimal (t : List Char) : (∀ x r, t = '0' :: x :: r → x ≠ 'x' ∧ x ≠ 'X') → Marked t 10 t

/-- The text is a numeral of `n`, with the mark of its base and perhaps a plus sign before it. -/
def Writes (t : List Char) (n : Nat) : Prop :=
  ∃ base r s, Marked t base r ∧ (r = s ∨ r = '+' :: s) ∧ IsNumeral base s n

theorem marked_iff {t : List Char} {base : Nat} {r : List Char} :
    Marked t base r ↔ splitBase t = (base, r) := by
  constructor
  · rintro (⟨x, r, rfl | rfl⟩ | ⟨t, hmark⟩)
    · rfl
    · rfl
    · unfold splitBase
      split
      · next s => exact absurd rfl (hmark 'x' s rfl).1
      · next s => exact absurd rfl (hmark 'X' s rfl).2
      · rfl
  · intro h
    unfold splitBase at h
    split at h
    · cases h
      exact .hexadecimal 'x' _ (.inl rfl)
    · cases h
      exact .hexadecimal 'X' _ (.inr rfl)
    · next hlower hupper =>
      cases h
      refine .decimal _ fun x r ht => ⟨?_, ?_⟩
      · rintro rfl
        exact hlower r ht
      · rintro rfl
        exact hupper r ht

theorem Marked.base_le {t : List Char} {base : Nat} {r : List Char} (h : Marked t base r) :
    base ≤ 16 := by
  cases h <;> omega

/-! ## Characters of a numeral -/

variable {base : Nat}

theorem exists_isDigit_of_mem {s : List Char} {n : Nat} (h : IsNumeral base s n) {c : Char}
    (hc : c ∈ s) : ∃ d, IsDigit base c d := by
  obtain ⟨ds, -, hds, -⟩ := h
  clear n
  induction hds with
  | nil => cases hc
  | cons hd _ ih =>
    rcases List.mem_cons.mp hc with rfl | hc
    · exact ⟨_, hd⟩
    · exact ih hc

theorem not_isDigit_of_digit?_eq_none (hbase : base ≤ 16) {c : Char} (h : digit? base c = none)
    (d : Nat) : ¬ IsDigit base c d := by
  rw [← digit?_eq_some_iff hbase, h]
  exact nofun

theorem not_isDigit_plus (hbase : base ≤ 16) (d : Nat) : ¬ IsDigit base '+' d :=
  not_isDigit_of_digit?_eq_none hbase rfl d

/-- Neither signs nor underscores nor blanks are digits. -/
theorem not_isDigit_of_separator (hbase : base ≤ 16) {c : Char}
    (h : c = '-' ∨ c = '_' ∨ isBlank c) (d : Nat) : ¬ IsDigit base c d := by
  apply not_isDigit_of_digit?_eq_none hbase
  rcases h with rfl | rfl | h
  · rfl
  · rfl
  · simp only [isBlank, blankRanges, List.any_cons, List.any_nil, Bool.or_false, Bool.or_eq_true,
      Bool.and_eq_true, decide_eq_true_eq] at h
    simp only [digit?, le_iff_toNat_le, Char.reduceToNat]
    rw [if_neg (by omega), if_neg (by omega), if_neg (by omega), Option.filter_none]

theorem isNumeral_dropPlus_iff (hbase : base ≤ 16) {r : List Char} {n : Nat} :
    IsNumeral base (dropPlus r) n ↔ ∃ s, (r = s ∨ r = '+' :: s) ∧ IsNumeral base s n := by
  unfold dropPlus
  split
  · next s =>
    refine ⟨fun h => ⟨s, .inr rfl, h⟩, ?_⟩
    rintro ⟨_, rfl | h, hs⟩
    · obtain ⟨d, hd⟩ := exists_isDigit_of_mem hs List.mem_cons_self
      exact absurd hd (not_isDigit_plus hbase d)
    · exact (List.cons.inj h).2 ▸ hs
  · next hplus =>
    refine ⟨fun h => ⟨r, .inl rfl, h⟩, ?_⟩
    rintro ⟨s, rfl | rfl, hs⟩
    · exact hs
    · exact absurd rfl (hplus s)

/-! ## The parser -/

theorem writes_iff {t : List Char} {n : Nat} :
    Writes t n ↔ numeral? (splitBase t).1 (dropPlus (splitBase t).2) = some n := by
  have hmarked : Marked t (splitBase t).1 (splitBase t).2 := marked_iff.mpr rfl
  rw [numeral?_eq_some_iff hmarked.base_le, isNumeral_dropPlus_iff hmarked.base_le, Writes]
  constructor
  · rintro ⟨base, r, s, ht, hs⟩
    rw [marked_iff.mp ht]
    exact ⟨s, hs⟩
  · rintro ⟨s, hs⟩
    exact ⟨_, _, s, hmarked, hs⟩

/-- A text writes one number at most. -/
theorem Writes.unique {t : List Char} {n m : Nat} (hn : Writes t n) (hm : Writes t m) : n = m :=
  Option.some.inj ((writes_iff.mp hn).symm.trans (writes_iff.mp hm))

theorem ofText?_eq_some_iff {s : List Char} {v : UInt32} :
    ofText? s = some v ↔ Writes (trim s) v.toNat := by
  rw [writes_iff]
  simp only [ofText?, Option.map_eq_some_iff, Option.filter_eq_some_iff, decide_eq_true_eq]
  constructor
  · rintro ⟨n, ⟨hn, hlt⟩, rfl⟩
    rw [hn, UInt32.toNat_ofNat_of_lt' hlt]
  · intro hv
    exact ⟨v.toNat, ⟨hv, v.toNat_lt⟩, UInt32.ofNat_toNat⟩

theorem ofText?_eq_none_iff {s : List Char} :
    ofText? s = none ↔ ∀ n, Writes (trim s) n → 2 ^ 32 ≤ n := by
  rw [Option.eq_none_iff_forall_ne_some]
  constructor
  · intro h n hn
    by_contra hlt
    have hlt : n < 2 ^ 32 := Nat.not_le.mp hlt
    exact h (.ofNat n) (ofText?_eq_some_iff.mpr (by rwa [UInt32.toNat_ofNat_of_lt' hlt]))
  · intro h v hv
    exact absurd (h v.toNat (ofText?_eq_some_iff.mp hv)) (Nat.not_le.mpr v.toNat_lt)

/-- A text writes nothing if there is no digit after the mark, or what is no part of a number. -/
theorem not_writes {t r : List Char} (ht : Marked t base r)
    (h : (∀ c ∈ r, ∀ d, ¬ IsDigit base c d) ∨ ∃ c ∈ r, c = '-' ∨ c = '_' ∨ isBlank c) (n : Nat) :
    ¬ Writes t n := by
  rintro ⟨base', r', s, ht', hs, hn⟩
  obtain ⟨rfl, rfl⟩ := Prod.mk.inj ((marked_iff.mp ht).symm.trans (marked_iff.mp ht'))
  have hsub : ∀ c ∈ s, c ∈ r := by
    rcases hs with rfl | rfl
    · exact fun _ hc => hc
    · exact fun _ hc => List.mem_cons_of_mem _ hc
  rcases h with hnone | ⟨c, hc, hseparator⟩
  · -- a numeral has a first digit
    obtain ⟨_ | ⟨d, ds⟩, hne, hds, -⟩ := hn
    · exact hne rfl
    · obtain ⟨c, s, hd, -, rfl⟩ := List.forall₂_cons_right_iff.mp hds
      exact hnone c (hsub c List.mem_cons_self) d hd
  · have hmem : c ∈ s := by
      rcases hs with rfl | rfl
      · exact hc
      · rcases List.mem_cons.mp hc with rfl | hc
        · exact absurd hseparator (by decide)
        · exact hc
    obtain ⟨d, hd⟩ := exists_isDigit_of_mem hn hmem
    exact not_isDigit_of_separator ht.base_le hseparator d hd

/-! ## Numbers as they are printed -/

variable {s : List Char} {n : Nat}

theorem writes_of_decimal (h : IsNumeral 10 s n) : Writes s n := by
  refine ⟨10, s, s, .decimal s fun x r hs => ?_, .inl rfl, h⟩
  obtain ⟨d, hd⟩ := exists_isDigit_of_mem h (c := x) (by simp [hs])
  constructor <;> rintro rfl <;>
    exact not_isDigit_of_digit?_eq_none (by decide) rfl d hd

theorem writes_of_hexadecimal (h : IsNumeral 16 s n) {x : Char} (hx : x = 'x' ∨ x = 'X') :
    Writes ('0' :: x :: s) n :=
  ⟨16, s, s, .hexadecimal x s hx, .inl rfl, h⟩

/-- No character of a numeral is a blank. -/
theorem not_isBlank_of_isNumeral (hbase : base ≤ 16) (h : IsNumeral base s n) :
    ∀ c ∈ s, isBlank c = false := by
  intro c hc
  obtain ⟨d, hd⟩ := exists_isDigit_of_mem h hc
  by_contra hblank
  exact not_isDigit_of_separator hbase (.inr (.inr (by simpa using hblank))) d hd

theorem trim_eq_self_of_forall (h : ∀ c ∈ s, isBlank c = false) : trim s = s :=
  trim_eq_self (fun c hc => h c (List.mem_of_mem_head? hc))
    fun c hc => h c (List.mem_of_mem_getLast? hc)

/-- Blanks around what writes a number are passed over. -/
theorem ofText?_of_writes {t before after : List Char} {v : UInt32}
    (hbefore : ∀ c ∈ before, isBlank c) (hafter : ∀ c ∈ after, isBlank c)
    (ht : ∀ c ∈ t, isBlank c = false) (h : Writes t v.toNat) :
    ofText? (before ++ t ++ after) = some v := by
  rw [ofText?_eq_some_iff, trim_append_right hafter, trim_append_left hbefore,
    trim_eq_self_of_forall ht]
  exact h

/-- **The parser accepts exactly its grammar.** A text gives the seed `v` if and only if it writes
`v` but for the blanks around it, and nothing if and only if it writes no number below `2 ^ 32`; so
where no digit follows the mark of the base, or a minus sign, an underscore or a blank does, it
gives nothing. Every number is read from its decimal text, and from its hexadecimal text with
letters of either case, with zeros before and blanks around it. -/
theorem accepts_exactly_its_grammar :
    (∀ s v, ofText? s = some v ↔ ∃ t, TrimsTo s t ∧ Writes t v.toNat) ∧
    (∀ s, ofText? s = none ↔ ∀ t n, TrimsTo s t → Writes t n → 2 ^ 32 ≤ n) ∧
    (∀ s t base r, TrimsTo s t → Marked t base r →
      ((∀ c ∈ r, ∀ d, ¬ IsDigit base c d) ∨ ∃ c ∈ r, c = '-' ∨ c = '_' ∨ isBlank c) →
      ofText? s = none) ∧
    ∀ (v : UInt32) (k : Nat) (before after : List Char),
      (∀ c ∈ before, isBlank c) → (∀ c ∈ after, isBlank c) →
      ofText? (before ++ (List.replicate k '0' ++ Nat.toDigits 10 v.toNat) ++ after) = some v ∧
      ∀ x h, x = 'x' ∨ x = 'X' → SameUpToCase h (Nat.toDigits 16 v.toNat) →
        ofText? (before ++ ('0' :: x :: (List.replicate k '0' ++ h)) ++ after) = some v := by
  refine ⟨fun s v => ?_, fun s => ?_, fun s t base r hs ht hr => ?_,
    fun v k before after hbefore hafter => ⟨?_, fun x h hx hh => ?_⟩⟩
  · simp only [ofText?_eq_some_iff, trimsTo_iff, exists_eq_left']
  · rw [ofText?_eq_none_iff]
    refine ⟨fun h t n ht => trimsTo_iff.mp ht ▸ h n, fun h n => h _ n (trimsTo_trim s)⟩
  · rw [ofText?_eq_none_iff, trimsTo_iff.mp hs]
    exact fun n hn => absurd hn (not_writes ht hr n)
  · have hn := (isNumeral_toDigits (by decide : 1 < 10) v.toNat).zeros (by decide) k
    exact ofText?_of_writes hbefore hafter (not_isBlank_of_isNumeral (by decide) hn)
      (writes_of_decimal hn)
  · have hn := (isNumeral_of_sameUpToCase (by decide) hh).zeros (by decide) k
    refine ofText?_of_writes hbefore hafter ?_ (writes_of_hexadecimal hn hx)
    have hdigits := not_isBlank_of_isNumeral (by decide) hn
    simp only [List.mem_cons, forall_eq_or_imp]
    refine ⟨rfl, ?_, hdigits⟩
    rcases hx with rfl | rfl <;> rfl

/-- Forty-two in base sixteen, with the other mark and the other letter, zeros and blanks; and a
text with a minus sign after the mark. -/
theorem accepts_exactly_its_grammar_42 :
    SameUpToCase ['2', 'A'] (Nat.toDigits 16 42) ∧
    ofText? ['\n', '0', 'X', '0', '0', '2', 'A', ' '] = some 42 ∧
    ofText? [' ', '+', '0', '4', '2'] = some 42 ∧
    Marked ['0', 'x', '-', '1'] 16 ['-', '1'] ∧ ofText? ['0', 'x', '-', '1'] = none := by
  obtain ⟨hsome, -, hnone, hprinted⟩ := accepts_exactly_its_grammar
  have hcase : SameUpToCase ['2', 'A'] (Nat.toDigits 16 42) := sameUpToCase_iff.mpr (by decide)
  have hmark : Marked ['0', 'x', '-', '1'] 16 ['-', '1'] := .hexadecimal 'x' _ (.inl rfl)
  have hplus : Writes ['+', '0', '4', '2'] 42 := writes_iff.mpr (by decide)
  refine ⟨hcase, ?_, ?_, hmark, ?_⟩
  · have hblank : (∀ c ∈ ['\n'], isBlank c) ∧ ∀ c ∈ [' '], isBlank c := by
      simp only [List.forall_mem_singleton]
      exact ⟨rfl, rfl⟩
    exact (hprinted 42 2 ['\n'] [' '] hblank.1 hblank.2).2 'X' _ (.inr rfl) hcase
  · exact (hsome _ 42).mpr ⟨_, trimsTo_iff.mpr rfl, hplus⟩
  · exact hnone _ _ 16 _ (trimsTo_iff.mpr rfl) hmark (.inr ⟨'-', by decide⟩)

end KeyDigest.Seed
