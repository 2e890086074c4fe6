import Mathlib.Data.List.Forall2
import Mathlib.Data.List.TakeWhile
import Mathlib.Data.Nat.Digits.Defs
import Mathlib.Tactic.IntervalCases
import KeyDigest.Text.Blank
import KeyDigest.Text.Numeral

/-!
# What a text spells

The trimming of a text, the comparison of letters and the reading of numerals are functions. Here
each of them is the relation that it decides, which says what a text looks like and not how it is
taken apart.

* `TrimsTo`: a text without the blanks around it.
* `SameLetter`: one letter in either case; only the letters of ASCII have two.
* `IsNumeral`: a row of digits, and the number that Mathlib's `Nat.ofDigits` makes of it.

The numeral of a number exists (`isNumeral_toDigits`), and it stays one with zeros before it and
with other letters for its letters (`IsNumeral.zeros`, `isNumeral_of_sameUpToCase`).
-/

namespace KeyDigest.Text

/-! ## Blanks around a text -/

/-- `t` is `s` without the blanks at its two ends. -/
structure TrimsTo (s t : List Char) : Prop where
  around : ∃ before after, (∀ c ∈ before, isBlank c) ∧ (∀ c ∈ after, isBlank c) ∧
    s = before ++ t ++ after
  first : ∀ c ∈ t.head?, isBlank c = false
  last : ∀ c ∈ t.getLast?, isBlank c = false

theorem trim_append_left {before : List Char} (h : ∀ c ∈ before, isBlank c) (s : List Char) :
    trim (before ++ s) = trim s := by
  rw [trim, List.dropWhile_append_of_pos h, trim]

theorem trim_append_right {after : List Char} (h : ∀ c ∈ after, isBlank c) (s : List Char) :
    trim (s ++ after) = trim s := by
  have hafter : after.dropWhile isBlank = [] := List.dropWhile_eq_nil_iff.mpr h
  have hreverse : ∀ c ∈ after.reverse, isBlank c := fun c hc => h c (List.mem_reverse.mp hc)
  rw [trim, trim, List.dropWhile_append]
  split
  · next hempty => rw [hafter, List.isEmpty_iff.mp hempty]
  · rw [List.reverse_append, List.dropWhile_append_of_pos hreverse]

theorem head?_dropWhile_isBlank (s : List Char) :
    ∀ c ∈ (s.dropWhile isBlank).head?, isBlank c = false := by
  intro c hc
  have h := List.head?_dropWhile_not isBlank s
  rw [Option.mem_def.mp hc] at h
  exact h

theorem trimsTo_trim (s : List Char) : TrimsTo s (trim s) := by
  set u := s.dropWhile isBlank with hu
  have hdrop : trim s = (u.reverse.dropWhile isBlank).reverse := rfl
  have hsplit : u = trim s ++ (u.reverse.takeWhile isBlank).reverse := by
    rw [hdrop, ← List.reverse_append, List.takeWhile_append_dropWhile, List.reverse_reverse]
  refine ⟨⟨s.takeWhile isBlank, (u.reverse.takeWhile isBlank).reverse, ?_, ?_, ?_⟩, ?_, ?_⟩
  · exact fun c hc => List.mem_takeWhile_imp hc
  · exact fun c hc => List.mem_takeWhile_imp (List.mem_reverse.mp hc)
  · rw [List.append_assoc, ← hsplit, hu, List.takeWhile_append_dropWhile]
  · -- what is left of `u` begins as `u` does, if anything is left
    intro c hc
    apply head?_dropWhile_isBlank s
    rw [← hu, hsplit, List.head?_append, Option.mem_def.mp hc]
    rfl
  · intro c hc
    rw [hdrop, List.getLast?_reverse] at hc
    exact head?_dropWhile_isBlank _ c hc

theorem trimsTo_iff {s t : List Char} : TrimsTo s t ↔ trim s = t := by
  refine ⟨fun h => ?_, fun h => h ▸ trimsTo_trim s⟩
  obtain ⟨before, after, hbefore, hafter, rfl⟩ := h.around
  rw [trim_append_right hafter, trim_append_left hbefore, trim_eq_self h.first h.last]

/-! ## Letters in either case -/

/-- `a` is a capital letter of ASCII, and `b` is the same letter in lower case. -/
def CapitalOf (a b : Char) : Prop := 'A' ≤ a ∧ a ≤ 'Z' ∧ b.toNat = a.toNat + 32

/-- The same character, or the same letter of ASCII in the two cases. -/
def SameLetter (a b : Char) : Prop := a = b ∨ CapitalOf a b ∨ CapitalOf b a

/-- Texts that differ in the case of their letters at most. -/
def SameUpToCase (s t : List Char) : Prop := List.Forall₂ SameLetter s t

theorem le_iff_toNat_le {a b : Char} : a ≤ b ↔ a.toNat ≤ b.toNat := UInt32.le_iff_toNat_le

theorem toNat_toLower (c : Char) :
    c.toLower.toNat = if 65 ≤ c.toNat ∧ c.toNat ≤ 90 then c.toNat + 32 else c.toNat := by
  have hval : c.toNat = c.val.toNat := rfl
  unfold Char.toLower
  split
  · next h =>
    have hfirst : 65 ≤ c.toNat := UInt32.le_iff_toNat_le.mp h.1
    have hlast : c.toNat ≤ 90 := UInt32.le_iff_toNat_le.mp h.2
    have hsum : (c.val + 32).toNat = (c.val.toNat + 32) % 2 ^ 32 := UInt32.toNat_add _ _
    rw [if_pos ⟨hfirst, hlast⟩]
    exact hsum.trans (by omega)
  · next h =>
    rw [if_neg fun h' =>
      h ⟨UInt32.le_iff_toNat_le.mpr h'.1, UInt32.le_iff_toNat_le.mpr h'.2⟩]

theorem sameLetter_iff {a b : Char} : SameLetter a b ↔ a.toLower = b.toLower := by
  simp only [SameLetter, CapitalOf, le_iff_toNat_le, Char.reduceToNat, ← Char.toNat_inj,
    toNat_toLower]
  split_ifs <;> omega

theorem sameUpToCase_iff {s t : List Char} :
    SameUpToCase s t ↔ s.map Char.toLower = t.map Char.toLower := by
  have hletter : SameLetter = fun a b => a.toLower = b.toLower :=
    funext₂ fun _ _ => propext sameLetter_iff
  rw [← List.forall₂_eq_eq_eq, List.forall₂_map_left_iff, List.forall₂_map_right_iff,
    SameUpToCase, hletter]

/-- Letters outside ASCII have no other case. -/
theorem SameLetter.toNat_lt {a b : Char} (h : SameLetter a b) (hb : b.toNat < 128) :
    a.toNat < 128 := by
  simp only [SameLetter, CapitalOf, le_iff_toNat_le, Char.reduceToNat] at h
  rcases h with rfl | ⟨-, hlast, -⟩ | ⟨-, hlast, hsmall⟩ <;> omega

theorem SameUpToCase.refl (s : List Char) : SameUpToCase s s := sameUpToCase_iff.mpr rfl

/-! ## Numerals -/

/-- The character is the digit `d` of the base. -/
def IsDigit (base : Nat) (c : Char) (d : Nat) : Prop := d < base ∧ SameLetter c d.digitChar

/-- The text is a row of one digit or more, and `n` the number that they denote. -/
def IsNumeral (base : Nat) (s : List Char) (n : Nat) : Prop :=
  ∃ ds, ds ≠ [] ∧ List.Forall₂ (IsDigit base) s ds ∧ Nat.ofDigits base ds.reverse = n

theorem toNat_digitChar {d : Nat} (h : d < 16) :
    d.digitChar.toNat = if d < 10 then 48 + d else 87 + d := by
  interval_cases d <;> rfl

variable {base : Nat}

theorem digit?_eq_some_iff (hbase : base ≤ 16) {c : Char} {d : Nat} :
    digit? base c = some d ↔ IsDigit base c d := by
  simp only [digit?, IsDigit, Option.filter_eq_some_iff, decide_eq_true_eq, le_iff_toNat_le,
    Char.reduceToNat]
  rw [and_comm]
  refine and_congr_right fun hd => ?_
  rw [sameLetter_iff, ← Char.toNat_inj, toNat_toLower, toNat_toLower,
    toNat_digitChar (by omega : d < 16)]
  split_ifs <;> simp <;> omega

theorem digitsFrom?_eq_some_iff (hbase : base ≤ 16) {s : List Char} {n m : Nat} :
    digitsFrom? base n s = some m ↔
      ∃ ds, List.Forall₂ (IsDigit base) s ds ∧ ds.foldl (fun n d => d + base * n) n = m := by
  induction s generalizing n with
  | nil => simp
  | cons c s ih =>
    simp only [digitsFrom?_cons, Option.bind_eq_some_iff, digit?_eq_some_iff hbase, ih,
      List.forall₂_cons_left_iff]
    constructor
    · rintro ⟨d, hd, ds, hds, hm⟩
      refine ⟨d :: ds, ⟨d, ds, hd, hds, rfl⟩, ?_⟩
      rwa [List.foldl_cons, Nat.add_comm d, Nat.mul_comm base]
    · rintro ⟨_, ⟨d, ds, hd, hds, rfl⟩, hm⟩
      refine ⟨d, hd, ds, hds, ?_⟩
      rwa [List.foldl_cons, Nat.add_comm d, Nat.mul_comm base] at hm

theorem ofDigits_reverse (base : Nat) (ds : List Nat) :
    Nat.ofDigits base ds.reverse = ds.foldl (fun n d => d + base * n) 0 := by
  rw [Nat.ofDigits_eq_foldr, List.foldr_reverse]
  rfl

theorem numeral?_eq_some_iff (hbase : base ≤ 16) {s : List Char} {n : Nat} :
    numeral? base s = some n ↔ IsNumeral base s n := by
  cases s with
  | nil =>
    refine ⟨fun h => by simp [numeral?] at h, ?_⟩
    rintro ⟨ds, hne, hds, -⟩
    exact absurd (List.forall₂_nil_left_iff.mp hds) hne
  | cons c s =>
    have hread : numeral? base (c :: s) = digitsFrom? base 0 (c :: s) := rfl
    rw [hread, digitsFrom?_eq_some_iff hbase, IsNumeral]
    refine exists_congr fun ds => ?_
    rw [ofDigits_reverse]
    refine ⟨fun ⟨hds, hn⟩ => ⟨?_, hds, hn⟩, fun ⟨_, hds, hn⟩ => ⟨hds, hn⟩⟩
    rintro rfl
    cases hds

/-- The digits of the text that a number is printed as. -/
theorem exists_toDigits (hbase : 1 < base) (n : Nat) :
    ∃ ds, ds ≠ [] ∧ (∀ d ∈ ds, d < base) ∧ Nat.ofDigits base ds.reverse = n ∧
      Nat.toDigits base n = ds.map Nat.digitChar := by
  induction n using Nat.strong_induction_on with
  | _ n ih =>
    rcases Nat.lt_or_ge n base with hn | hn
    · exact ⟨[n], by simp, by simpa using hn, by simp, Nat.toDigits_of_lt_base hn⟩
    · have hpos : 0 < n / base := Nat.div_pos hn (by omega)
      have hmod : n % base < base := Nat.mod_lt _ (by omega)
      obtain ⟨ds, -, hlt, hvalue, htext⟩ := ih (n / base) (Nat.div_lt_self (by omega) hbase)
      refine ⟨ds ++ [n % base], by simp, ?_, ?_, ?_⟩
      · simp only [List.mem_append, List.mem_singleton]
        rintro d (hd | rfl)
        · exact hlt d hd
        · exact hmod
      · rw [List.reverse_append, List.reverse_singleton, List.singleton_append, Nat.ofDigits_cons,
          hvalue, Nat.mod_add_div]
      · conv_lhs => rw [← Nat.div_add_mod n base]
        rw [← Nat.toDigits_append_toDigits hbase hpos hmod, htext, Nat.toDigits_of_lt_base hmod,
          List.map_append, List.map_singleton]

/-- The letters of the numeral that a number is printed as may have either case. -/
theorem isNumeral_of_sameUpToCase (hbase : 1 < base) {s : List Char} {n : Nat}
    (h : SameUpToCase s (Nat.toDigits base n)) : IsNumeral base s n := by
  obtain ⟨ds, hne, hlt, hvalue, htext⟩ := exists_toDigits hbase n
  rw [SameUpToCase, htext, List.forall₂_map_right_iff] at h
  refine ⟨ds, hne, ?_, hvalue⟩
  clear hne hvalue htext
  induction h with
  | nil => exact .nil
  | cons hc _ ih =>
    exact .cons ⟨hlt _ (by simp), hc⟩ (ih fun d hd => hlt d (by simp [hd]))

theorem isNumeral_toDigits (hbase : 1 < base) (n : Nat) :
    IsNumeral base (Nat.toDigits base n) n :=
  isNumeral_of_sameUpToCase hbase (.refl _)

/-- Zeros before a numeral change nothing. -/
theorem IsNumeral.zeros (hbase : 0 < base) {s : List Char} {n : Nat} (h : IsNumeral base s n)
    (k : Nat) : IsNumeral base (List.replicate k '0' ++ s) n := by
  obtain ⟨ds, hne, hds, rfl⟩ := h
  refine ⟨List.replicate k 0 ++ ds, by simp [hne], ?_, ?_⟩
  · induction k with
    | zero => exact hds
    | succ k ih => exact .cons ⟨hbase, .inl rfl⟩ ih
  · rw [List.reverse_append, List.reverse_replicate, Nat.ofDigits_append,
      Nat.ofDigits_replicate_zero, Nat.mul_zero, Nat.add_zero]

end KeyDigest.Text
