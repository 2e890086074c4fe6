import KeyDigest.Proofs.Key.Words
import KeyDigest.Proofs.Lookup3.Formula

/-!
# The portable digest is balanced

From twenty bytes on, the four words that the portable digest reads do not overlap, so three of
them, all but the middle one, can be chosen freely. Each round is a bijection of the word that it
changes, and the rounds can be undone from the last one back: what is chosen and the state that it
ends in give each other. The digest is one of the three words of that state.

* `rounds`: the free words and the final state, each from the other.
* `freeWords_bijOn`: the keys that differ in the free words only, and the choices of these words.

**Theorem (`digest_balanced`).** Every digest is that of equally many keys.
-/

namespace KeyDigest.Lookup3

open LittleEndian

variable {key key' : Key}

/-! ## The final state -/

/-- The state `(a, b, h)` that a key leaves after the last round. -/
def finalState (key : Key) : UInt32 × UInt32 × UInt32 :=
  let mid := key.word32At (key.size / 2 - 2)
  let h := Mixing.round (.ofNat key.size ^^^ key.word32At (key.size - 4)) mid 14
  let a := Mixing.round (key.word32At 0) h 11
  let b := Mixing.round (mid + key.word32At (key.size / 4 - 1)) a 25
  (a, b, Mixing.round h b 16)

theorem digest_eq_finalState (hfour : 4 ≤ key.size) (hkey : key.size < 2 ^ 64) :
    digest key = (finalState key).2.2 := by
  rw [digest_eq_formula hkey, if_pos hfour]
  rfl

/-- The first, the quarter and the last word of a key. -/
def freeWords (key : Key) : UInt32 × UInt32 × UInt32 :=
  (key.word32At 0, key.word32At (key.size / 4 - 1), key.word32At (key.size - 4))

/-- The free words and the final state, each from the other, where `n` is the length modulo `2 ^ 32`
and `mid` the middle word. -/
def rounds (n mid : UInt32) : UInt32 × UInt32 × UInt32 ≃ UInt32 × UInt32 × UInt32 where
  toFun v :=
    let h := Mixing.round (n ^^^ v.2.2) mid 14
    let a := Mixing.round v.1 h 11
    let b := Mixing.round (mid + v.2.1) a 25
    (a, b, Mixing.round h b 16)
  -- `h` is undone first: the round of `a` took the `h` from before.
  invFun s :=
    let h := Mixing.unround s.2.2 s.2.1 16
    (Mixing.unround s.1 h 11, Mixing.unround s.2.1 s.1 25 - mid, n ^^^ Mixing.unround h mid 14)
  left_inv v := by
    simp only [Mixing.unround_round, ← UInt32.xor_assoc, UInt32.xor_self, UInt32.zero_xor,
      UInt32.add_comm mid, UInt32.add_sub_cancel]
  right_inv s := by
    simp only [Mixing.round_unround, ← UInt32.xor_assoc, UInt32.xor_self, UInt32.zero_xor,
      UInt32.add_comm mid, UInt32.sub_add_cancel]

/-! ## The keys with given other bytes -/

/-- Place `i` of a key of `n` bytes is in one of the free words. -/
def Free (n i : Nat) : Prop :=
  i < 4 ∨ (n / 4 - 1 ≤ i ∧ i < n / 4 + 3) ∨ (n - 4 ≤ i ∧ i < n)

/-- The keys that differ from `key` in the free words at most. -/
def fillings (key : Key) : Set Key :=
  {key' | key'.size = key.size ∧ ∀ i, ¬ Free key.size i → key'[i]? = key[i]?}

def fill (key : Key) (v : UInt32 × UInt32 × UInt32) : Key :=
  ((key.setWord32 0 v.1).setWord32 (key.size / 4 - 1) v.2.1).setWord32 (key.size - 4) v.2.2

theorem size_fill (key : Key) (v : UInt32 × UInt32 × UInt32) : (fill key v).size = key.size := by
  rw [fill, Key.size_setWord32, Key.size_setWord32, Key.size_setWord32]

section

variable (htwenty : 20 ≤ key.size)
include htwenty

theorem fill_mem_fillings (v : UInt32 × UInt32 × UInt32) : fill key v ∈ fillings key := by
  refine ⟨size_fill key v, fun i hi => ?_⟩
  rw [Free] at hi
  by_cases hlt : i < key.size
  · rw [fill, Key.getElem?_setWord32_of_outside _ (by omega),
      Key.getElem?_setWord32_of_outside _ (by omega),
      Key.getElem?_setWord32_of_outside _ (by omega)]
  · rw [Array.getElem?_eq_none (by rw [size_fill]; omega), Array.getElem?_eq_none (by omega)]

theorem freeWords_fill (v : UInt32 × UInt32 × UInt32) : freeWords (fill key v) = v := by
  have hfirst : (fill key v).word32At 0 = v.1 := by
    rw [fill, Key.word32At_setWord32_of_disjoint (by omega),
      Key.word32At_setWord32_of_disjoint (by omega), Key.word32At_setWord32 (by omega)]
  have hquarter : (fill key v).word32At (key.size / 4 - 1) = v.2.1 := by
    rw [fill, Key.word32At_setWord32_of_disjoint (by omega),
      Key.word32At_setWord32 (by rw [Key.size_setWord32]; omega)]
  have hlast : (fill key v).word32At (key.size - 4) = v.2.2 :=
    Key.word32At_setWord32 (by rw [Key.size_setWord32, Key.size_setWord32]; omega) v.2.2
  rw [freeWords, size_fill, hfirst, hquarter, hlast]

/-- The middle word is not one of the free words. -/
theorem middle_of_mem_fillings (h : key' ∈ fillings key) :
    key'.word32At (key.size / 2 - 2) = key.word32At (key.size / 2 - 2) := by
  obtain ⟨hsize, hother⟩ := h
  refine Key.word32At_congr (by rw [hsize]) fun i hi => hother _ ?_
  rw [Free]
  omega

theorem freeWords_injOn : Set.InjOn freeWords (fillings key) := by
  rintro key₁ ⟨hsize₁, hother₁⟩ key₂ ⟨hsize₂, hother₂⟩ h
  rw [freeWords, freeWords, hsize₁, hsize₂, Prod.mk.injEq, Prod.mk.injEq] at h
  obtain ⟨hfirst, hquarter, hlast⟩ := h
  have hsize : key₁.size = key₂.size := hsize₁.trans hsize₂.symm
  apply Array.ext_getElem?
  intro i
  by_cases hfree : Free key.size i
  · rcases hfree with hi | ⟨hle, hlt⟩ | ⟨hle, hlt⟩
    · exact Key.getElem?_eq_of_word32At_eq (by omega) hsize hfirst (Nat.zero_le i) (by omega)
    · exact Key.getElem?_eq_of_word32At_eq (by omega) hsize hquarter hle (by omega)
    · exact Key.getElem?_eq_of_word32At_eq (by omega) hsize hlast hle (by omega)
  · rw [hother₁ i hfree, hother₂ i hfree]

theorem freeWords_bijOn : Set.BijOn freeWords (fillings key) Set.univ :=
  ⟨fun _ _ => Set.mem_univ _, freeWords_injOn htwenty, fun v _ =>
    ⟨fill key v, fill_mem_fillings htwenty v, freeWords_fill htwenty v⟩⟩

/-- All fillings have the length and the middle word in common, so one bijection serves them all. -/
theorem finalState_bijOn : Set.BijOn finalState (fillings key) Set.univ := by
  have hrounds : Set.EqOn
      (rounds (.ofNat key.size) (key.word32At (key.size / 2 - 2)) ∘ freeWords) finalState
      (fillings key) := by
    intro key' hmem
    have hmiddle := middle_of_mem_fillings htwenty hmem
    rw [finalState, hmem.1, hmiddle, Function.comp_apply, freeWords, hmem.1]
    rfl
  exact (Set.BijOn.comp (Equiv.bijective _).bijOn_univ (freeWords_bijOn htwenty)).congr hrounds

end

/-! ## Counting -/

theorem ncard_snd_snd_eq (d : UInt32) :
    {v : UInt32 × UInt32 × UInt32 | v.2.2 = d}.ncard = 2 ^ 64 := by
  have himage : {v : UInt32 × UInt32 × UInt32 | v.2.2 = d} =
      Set.range fun p : UInt32 × UInt32 => (p.1, p.2, d) := by
    ext ⟨a, b, h⟩
    constructor
    · rintro rfl
      exact ⟨(a, b), rfl⟩
    · rintro ⟨p, hp⟩
      exact (congrArg (fun v : UInt32 × UInt32 × UInt32 => v.2.2) hp).symm
  have hinjective : Function.Injective fun p : UInt32 × UInt32 => (p.1, p.2, d) := by
    rintro ⟨a, b⟩ ⟨a', b'⟩ h
    simpa using h
  rw [himage, ← Set.image_univ, Set.ncard_image_of_injective _ hinjective, Set.ncard_univ,
    Nat.card_prod, card_word32, ← Nat.pow_add]

/-- **The portable digest is balanced.** In a key of twenty bytes or more the four words that are
read do not overlap. However the bytes outside the first, the quarter and the last word are
fixed, the `2 ^ 96` choices of these three words correspond to the final states of the digest one
by one, and every digest is that of `2 ^ 64` choices. -/
theorem digest_balanced (htwenty : 20 ≤ key.size) (hkey : key.size < 2 ^ 64) :
    (0 + 4 ≤ key.size / 4 - 1 ∧ key.size / 4 - 1 + 4 ≤ key.size / 2 - 2 ∧
      key.size / 2 - 2 + 4 ≤ key.size - 4) ∧
    Set.BijOn freeWords (fillings key) Set.univ ∧ (fillings key).ncard = 2 ^ 96 ∧
    Set.BijOn finalState (fillings key) Set.univ ∧
    (∀ key' ∈ fillings key, digest key' = (finalState key').2.2) ∧
    ∀ d, {key' ∈ fillings key | digest key' = d}.ncard = 2 ^ 64 := by
  have hbij := finalState_bijOn htwenty
  have hdigest : ∀ key' ∈ fillings key, digest key' = (finalState key').2.2 := by
    rintro key' ⟨hsize, -⟩
    exact digest_eq_finalState (by omega) (by omega)
  refine ⟨by omega, freeWords_bijOn htwenty, ?_, hbij, hdigest, fun d => ?_⟩
  · rw [hbij.ncard_eq, Set.ncard_univ, Nat.card_prod, Nat.card_prod, card_word32, ← Nat.pow_add,
      ← Nat.pow_add]
  · have hfiber : {key' ∈ fillings key | digest key' = d} =
        fillings key ∩ Set.preimage finalState {v | v.2.2 = d} := by
      ext key'
      exact and_congr_right fun hmem => by rw [hdigest key' hmem]; rfl
    rw [hfiber, (hbij.subset_right (Set.subset_univ _)).ncard_eq, ncard_snd_snd_eq]

/-- At twenty bytes two of the words are next to each other. -/
theorem digest_balanced_twenty :
    20 ≤ (Array.replicate 20 0 : Key).size ∧ (Array.replicate 20 0 : Key).size < 2 ^ 64 ∧
    Array.replicate 20 0 ∈ fillings (Array.replicate 20 0) ∧
    digest (Array.replicate 20 0) = (finalState (Array.replicate 20 0)).2.2 ∧
    (fillings (Array.replicate 20 0)).ncard = 2 ^ 96 ∧
    {key ∈ fillings (Array.replicate 20 0) | digest key = 0xDEADBEEF}.ncard = 2 ^ 64 := by
  have hsize : (Array.replicate 20 0 : Key).size = 20 := Array.size_replicate
  have htwenty : 20 ≤ (Array.replicate 20 0 : Key).size := by omega
  have hmem : Array.replicate 20 0 ∈ fillings (Array.replicate 20 0) := ⟨rfl, fun _ _ => rfl⟩
  obtain ⟨-, -, hcount, -, hdigest, hbalanced⟩ := digest_balanced htwenty (by omega)
  exact ⟨htwenty, by omega, hmem, hdigest _ hmem, hcount, hbalanced _⟩

end KeyDigest.Lookup3
