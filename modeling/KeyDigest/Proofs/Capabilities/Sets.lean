import Mathlib
import KeyDigest.Capabilities.Detection

/-!
# Capability words as sets

A capability word stands for the set of the numbers of its bits, and every set of numbers below 64
is the set of one word. The operations on words are the ones on sets, so the order of words by `has`
is inclusion. A row of changes leaves a number in the set or out of it as the last change that
concerns the number says.

* `mem_numbers`: the numbers of a word are its bits.
* `has_iff`, `numbers_union`, `numbers_difference`, `numbers_bit`: the operations.
* `mem_numbers_foldl_apply`: what a row of changes leaves.
* `names_eq`: the names are those of the numbers, in increasing order.

**Theorem (`words_are_sets`).** All of this, and what follows for the order and for the reports.
-/

namespace KeyDigest.Capabilities

variable {a b c : Capabilities} {i : Fin 64}

/-! ## Numbers -/

/-- The numbers of the capabilities in a word. -/
def numbers (a : Capabilities) : Finset (Fin 64) :=
  Finset.univ.filter fun i => a.word.toBitVec.getLsbD i

theorem mem_numbers : i ∈ a.numbers ↔ a.word.toBitVec.getLsbD i := by
  simp [numbers]

theorem numbers_injective : Function.Injective numbers := by
  intro ⟨⟨v⟩⟩ ⟨⟨w⟩⟩ h
  congr 2
  apply BitVec.eq_of_getLsbD_eq
  intro i hi
  have hmem : (⟨i, hi⟩ : Fin 64) ∈ numbers ⟨⟨v⟩⟩ ↔ (⟨i, hi⟩ : Fin 64) ∈ numbers ⟨⟨w⟩⟩ := by rw [h]
  rwa [mem_numbers, mem_numbers, ← Bool.eq_iff_iff] at hmem

/-- The word of a set of numbers. -/
def ofNumbers (s : Finset (Fin 64)) : Capabilities := ⟨⟨BitVec.ofFnLE fun i => decide (i ∈ s)⟩⟩

theorem numbers_ofNumbers (s : Finset (Fin 64)) : (ofNumbers s).numbers = s := by
  ext i
  simp [mem_numbers, ofNumbers]

theorem numbers_bijective : Function.Bijective numbers :=
  ⟨numbers_injective, fun s => ⟨ofNumbers s, numbers_ofNumbers s⟩⟩

/-! ## The operations -/

theorem numbers_none : none.numbers = ∅ := by
  ext i
  simp [mem_numbers, none]

theorem numbers_union (a b : Capabilities) : (a.union b).numbers = a.numbers ∪ b.numbers := by
  ext i
  simp [mem_numbers, union]

theorem numbers_difference (a b : Capabilities) :
    (a.difference b).numbers = a.numbers \ b.numbers := by
  ext i
  simp [mem_numbers, difference]

theorem isEmpty_iff : a.isEmpty ↔ a.numbers = ∅ := by
  obtain ⟨w⟩ := a
  rw [← numbers_none, numbers_injective.eq_iff]
  simp [isEmpty, none]

theorem has_iff : a.has b ↔ b.numbers ⊆ a.numbers := by
  have hinter : (⟨a.word &&& b.word⟩ : Capabilities).numbers = a.numbers ∩ b.numbers := by
    ext i
    simp [mem_numbers]
  obtain ⟨w⟩ := b
  rw [← Finset.inter_eq_right, ← hinter, numbers_injective.eq_iff]
  simp [has]

theorem toBitVec_bit (b : UInt8) : (bit b).word.toBitVec = BitVec.twoPow 64 (b.toNat % 64) := by
  apply BitVec.eq_of_toNat_eq
  simp [bit, BitVec.twoPow]

theorem numbers_bit (b : UInt8) : (bit b).numbers = {Fin.ofNat 64 b.toNat} := by
  ext i
  simp [mem_numbers, toBitVec_bit, Fin.ext_iff, eq_comm]

/-! ## Inclusion -/

/-- A word is below another one that has all of it. -/
instance : PartialOrder Capabilities where
  le a b := b.has a
  le_refl _ := has_iff.2 subset_rfl
  le_trans _ _ _ hab hbc := has_iff.2 ((has_iff.1 hab).trans (has_iff.1 hbc))
  le_antisymm _ _ hab hba :=
    numbers_injective ((has_iff.1 hab).antisymm (has_iff.1 hba))

theorem le_iff : a ≤ b ↔ a.numbers ⊆ b.numbers := has_iff

theorem isLUB_union (a b : Capabilities) : IsLUB {a, b} (a.union b) := by
  refine ⟨?_, fun c hc => ?_⟩
  · rintro c (rfl | rfl) <;> rw [le_iff, numbers_union]
    · exact Finset.subset_union_left
    · exact Finset.subset_union_right
  · rw [le_iff, numbers_union]
    exact Finset.union_subset (le_iff.1 (hc (.inl rfl))) (le_iff.1 (hc (.inr rfl)))

theorem isGreatest_difference (a b : Capabilities) :
    IsGreatest {c | c ≤ a ∧ Disjoint c.numbers b.numbers} (a.difference b) := by
  refine ⟨⟨?_, ?_⟩, fun c ⟨hle, hdisjoint⟩ => ?_⟩
  · rw [le_iff, numbers_difference]
    exact Finset.sdiff_subset
  · rw [numbers_difference]
    exact Finset.sdiff_disjoint
  · rw [le_iff, numbers_difference]
    exact Finset.subset_sdiff.2 ⟨le_iff.1 hle, hdisjoint⟩

/-! ## Rows of changes -/

namespace Change

/-- What is added or removed. -/
def operand : Change → Capabilities
  | add c | remove c => c

def Adds : Change → Prop
  | add _ => True
  | remove _ => False

/-- Add the one capability with number `b`, taken modulo 64. -/
def addBit (b : UInt8) : Change := add (bit b)

/-- Remove the one capability with number `b`, taken modulo 64. -/
def removeBit (b : UInt8) : Change := remove (bit b)

/-- Of the changes, `c` is the last one whose operand contains `i`. -/
def LastOn (i : Fin 64) (changes : List Change) (c : Change) : Prop :=
  ∃ before after, changes = before ++ c :: after ∧ i ∈ c.operand.numbers ∧
    ∀ d ∈ after, i ∉ d.operand.numbers

variable {changes : List Change} {c d : Change}

theorem lastOn_concat :
    LastOn i (changes ++ [c]) d ↔
      i ∈ c.operand.numbers ∧ d = c ∨ i ∉ c.operand.numbers ∧ LastOn i changes d := by
  constructor
  · rintro ⟨before, after, hchanges, hd, hafter⟩
    rcases List.eq_nil_or_concat after with rfl | ⟨after, e, rfl⟩
    · obtain rfl := List.singleton_inj.1 (List.append_inj' hchanges rfl).2
      exact .inl ⟨hd, rfl⟩
    · rw [List.concat_eq_append, ← List.cons_append, ← List.append_assoc] at hchanges
      obtain ⟨rfl, he⟩ := List.append_inj' hchanges rfl
      obtain rfl := List.singleton_inj.1 he
      rw [List.concat_eq_append, List.forall_mem_append, List.forall_mem_singleton] at hafter
      exact .inr ⟨hafter.2, before, after, rfl, hd, hafter.1⟩
  · rintro (⟨h, rfl⟩ | ⟨h, before, after, rfl, hd, hafter⟩)
    · exact ⟨changes, [], rfl, h, by simp⟩
    · refine ⟨before, after ++ [c], by simp, hd, ?_⟩
      rw [List.forall_mem_append, List.forall_mem_singleton]
      exact ⟨hafter, h⟩

end Change

open Change

theorem mem_numbers_apply (c : Change) :
    i ∈ (a.apply c).numbers ↔
      i ∈ c.operand.numbers ∧ c.Adds ∨ i ∉ c.operand.numbers ∧ i ∈ a.numbers := by
  cases c with
  | add c =>
    change i ∈ (a.union c).numbers ↔ i ∈ c.numbers ∧ True ∨ i ∉ c.numbers ∧ i ∈ a.numbers
    rw [numbers_union, Finset.mem_union]
    tauto
  | remove c =>
    change i ∈ (a.difference c).numbers ↔ i ∈ c.numbers ∧ False ∨ i ∉ c.numbers ∧ i ∈ a.numbers
    rw [numbers_difference, Finset.mem_sdiff]
    tauto

/-- **The last change that concerns a number decides**, and the start if there is none. -/
theorem mem_numbers_foldl_apply (a : Capabilities) (changes : List Change) (i : Fin 64) :
    i ∈ (changes.foldl apply a).numbers ↔
      (∃ c, LastOn i changes c ∧ c.Adds) ∨
        (∀ c ∈ changes, i ∉ c.operand.numbers) ∧ i ∈ a.numbers := by
  induction changes using List.reverseRecOn with
  | nil => simp [LastOn]
  | append_singleton changes c ih =>
    rw [List.foldl_append, List.foldl_cons, List.foldl_nil, mem_numbers_apply, ih,
      List.forall_mem_append, List.forall_mem_singleton]
    by_cases h : i ∈ c.operand.numbers <;> simp [lastOn_concat, h]

/-- Number 65 is number 1. -/
example : [addBit 65, .remove (.union .sse42 .neon), addBit 1].foldl apply .neon = .sse42 := by
  decide

/-! ## Names -/

/-- The name of the capability with a number. -/
def name? : Fin 64 → Option String
  | 0 => some "sse2"
  | 1 => some "sse4.2"
  | 32 => some "neon"
  | 33 => some "crc"
  | _ => .none

/-- The numbers that have a name. -/
def namedNumbers : List (Fin 64) := [0, 1, 32, 33]

theorem sort_eq_filter_finRange (s : Finset (Fin 64)) :
    s.sort = (List.finRange 64).filter (· ∈ s) := by
  apply List.Perm.eq_of_pairwise' (r := (· ≤ ·))
  · exact s.pairwise_sort _
  · exact (List.pairwise_le_finRange 64).filter _
  · rw [List.perm_ext_iff_of_nodup (by simp) ((List.nodup_finRange 64).filter _)]
    simp

theorem filterMap_name?_sort (s : Finset (Fin 64)) :
    s.sort.filterMap name? = (namedNumbers.filter (· ∈ s)).filterMap name? := by
  have hnamed : (List.finRange 64).filter (fun i => (name? i).isSome) = namedNumbers := by decide
  have hskip : ∀ l : List (Fin 64),
      (l.filter fun i => (name? i).isSome).filterMap name? = l.filterMap name? := by
    intro l
    rw [List.filterMap_filter]
    congr 1
    funext i
    cases name? i <;> rfl
  rw [sort_eq_filter_finRange, ← hskip, List.filter_comm, hnamed]

theorem named_eq :
    named = namedNumbers.filterMap fun i => (name? i).map fun n => (ofNumbers {i}, n) := by
  decide +kernel

/-- The names are those of the numbers in the word, in increasing order. -/
theorem names_eq (a : Capabilities) : a.names = a.numbers.sort.filterMap name? := by
  have hentry : ∀ i, (((name? i).map fun n => (ofNumbers {i}, n)).filter fun n => a.has n.1).map
      Prod.snd = if i ∈ a.numbers then name? i else .none := by
    intro i
    have hhas : a.has (ofNumbers {i}) ↔ i ∈ a.numbers := by
      rw [has_iff, numbers_ofNumbers, Finset.singleton_subset_iff]
    cases name? i <;> by_cases hi : i ∈ a.numbers <;> simp [Option.filter, hhas, hi]
  rw [filterMap_name?_sort, names, named_eq, List.filter_filterMap, List.map_filterMap,
    List.filterMap_filter]
  simp only [hentry, decide_eq_true_eq]

/-- No two reports of named capabilities look the same. -/
theorem eq_of_listed_eq : ∀ l ∈ namedNumbers.sublists, ∀ l' ∈ namedNumbers.sublists,
    Text.listed ((l.filterMap name?).map Text.quoted) =
      Text.listed ((l'.filterMap name?).map Text.quoted) → l = l' := by
  decide +kernel

theorem filter_namedNumbers_eq_iff {s t : Finset (Fin 64)} :
    namedNumbers.filter (· ∈ s) = namedNumbers.filter (· ∈ t) ↔
      ∀ i ∈ namedNumbers, i ∈ s ↔ i ∈ t := by
  constructor
  · intro h i hi
    have hmem : i ∈ namedNumbers.filter (· ∈ s) ↔ i ∈ namedNumbers.filter (· ∈ t) := by rw [h]
    simpa [hi] using hmem
  · intro h
    exact List.filter_congr fun i hi => decide_eq_decide.2 (h i hi)

/-- The reports tell which of the named capabilities there are, and nothing else. -/
theorem reports_tfae (a b : Capabilities) :
    [a.names = b.names, a.describe = b.describe,
      ∀ i ∈ namedNumbers, i ∈ a.numbers ↔ i ∈ b.numbers].TFAE := by
  tfae_have 1 → 2 := fun h => by rw [describe, describe, h]
  tfae_have 2 → 3 := by
    intro h
    rw [describe, describe, names_eq, names_eq, filterMap_name?_sort, filterMap_name?_sort] at h
    exact filter_namedNumbers_eq_iff.1 <| eq_of_listed_eq _
      (List.mem_sublists.2 List.filter_sublist) _ (List.mem_sublists.2 List.filter_sublist) h
  tfae_have 3 → 1 := by
    intro h
    rw [names_eq, names_eq, filterMap_name?_sort, filterMap_name?_sort,
      filter_namedNumbers_eq_iff.2 h]
  tfae_finish

theorem eq_of_name?_eq_some : ∀ i j : Fin 64, name? i = name? j → (name? i).isSome → i = j := by
  decide +kernel

theorem nodup_names (a : Capabilities) : a.names.Nodup := by
  rw [names_eq]
  refine List.Nodup.filterMap (fun i j n hi hj => ?_) (a.numbers.sort_nodup _)
  rw [Option.mem_def] at hi hj
  exact eq_of_name?_eq_some i j (hi.trans hj.symm) (by rw [hi]; rfl)

/-- **A word is the set of its numbers.** Words and sets of numbers below 64 correspond to each
other, and the operations on words are those on sets: so `has` is a partial order with the union as
least upper bound, and the difference is the greatest part of the first word without common numbers
with the second. After a row of changes a number is in the set if and only if the last change whose
operand contains it adds it, or no operand contains it and it was in the set before. The reports
show the names of the numbers that have one, in increasing order, and depend on nothing else. -/
theorem words_are_sets :
    Function.Bijective numbers ∧
    (∀ a b : Capabilities, (a.has b ↔ b.numbers ⊆ a.numbers) ∧
      (a.union b).numbers = a.numbers ∪ b.numbers ∧ (a ||| b).numbers = a.numbers ∪ b.numbers ∧
      (a.difference b).numbers = a.numbers \ b.numbers ∧ (a.isEmpty ↔ a.numbers = ∅)) ∧
    (∀ b : UInt8, (bit b).numbers = {Fin.ofNat 64 b.toNat}) ∧
    IsPartialOrder Capabilities (· ≤ ·) ∧
    (∀ a b : Capabilities, (a ≤ b ↔ b.has a) ∧ IsLUB {a, b} (a.union b) ∧
      IsGreatest {c | c ≤ a ∧ Disjoint c.numbers b.numbers} (a.difference b)) ∧
    (∀ (a : Capabilities) (changes : List Change) (i : Fin 64),
      i ∈ (changes.foldl apply a).numbers ↔
        (∃ c, LastOn i changes c ∧ c.Adds) ∨
          (∀ c ∈ changes, i ∉ c.operand.numbers) ∧ i ∈ a.numbers) ∧
    (∀ b : UInt8, (addBit b).Adds ∧ (addBit b).operand.numbers = {Fin.ofNat 64 b.toNat} ∧
      ¬ (removeBit b).Adds ∧ (removeBit b).operand.numbers = {Fin.ofNat 64 b.toNat}) ∧
    (∀ a : Capabilities, a.names = a.numbers.sort.filterMap name? ∧ a.names.Nodup ∧
      a.describe = Text.listed ((a.numbers.sort.filterMap name?).map Text.quoted)) ∧
    ∀ a b : Capabilities, [a.names = b.names, a.describe = b.describe,
      ∀ i ∈ namedNumbers, i ∈ a.numbers ↔ i ∈ b.numbers].TFAE := by
  refine ⟨numbers_bijective, fun a b => ?_, numbers_bit, inferInstance, fun a b => ?_,
    mem_numbers_foldl_apply, fun b => ?_, fun a => ?_, reports_tfae⟩
  · exact ⟨has_iff, numbers_union a b, numbers_union a b, numbers_difference a b, isEmpty_iff⟩
  · exact ⟨Iff.rfl, isLUB_union a b, isGreatest_difference a b⟩
  · exact ⟨trivial, numbers_bit b, id, numbers_bit b⟩
  · exact ⟨names_eq a, nodup_names a, by rw [describe, names_eq]⟩

end KeyDigest.Capabilities
