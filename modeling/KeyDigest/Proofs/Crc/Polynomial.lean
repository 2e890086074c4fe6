import Mathlib
import KeyDigest.Proofs.Crc.Shift

/-!
# Registers as polynomials

Over the field of two elements a word in reflected order is a polynomial: its highest bit is the
constant coefficient. The register then stands for a residue modulo the Castagnoli polynomial, and
a shift multiplies that residue by `X`.

* `reflected_injective`: no two words of one width have the same polynomial.
* `residue_shifts`: `n` shifts multiply by `X ^ n`.
* `eq_modByMonic`: a polynomial of degree below 32 is the remainder of every polynomial in its
  residue class.
-/

namespace KeyDigest.Crc

open Polynomial

/-! ## Polynomials from bits -/

/-- The polynomial of degree below `n` whose coefficient at `X ^ i` is bit `i`. -/
noncomputable def bitPolynomial (n : Nat) (bit : Nat → Bool) : (ZMod 2)[X] :=
  ∑ i ∈ Finset.range n, if bit i then X ^ i else 0

theorem coeff_bitPolynomial (n : Nat) (bit : Nat → Bool) (i : Nat) :
    (bitPolynomial n bit).coeff i = if i < n ∧ bit i then 1 else 0 := by
  have hterm (j : Nat) : (if bit j then X ^ j else (0 : (ZMod 2)[X])).coeff i =
      if i = j then if bit j then 1 else 0 else 0 := by
    by_cases hb : bit j <;> simp [hb, coeff_X_pow]
  rw [bitPolynomial, finsetSum_coeff, Finset.sum_congr rfl fun j _ => hterm j,
    Finset.sum_ite_eq, ite_and]
  simp only [Finset.mem_range]

theorem degree_bitPolynomial_lt (n : Nat) (bit : Nat → Bool) :
    (bitPolynomial n bit).degree < n := by
  apply (degree_lt_iff_coeff_zero _ _).2
  intro i hi
  rw [coeff_bitPolynomial, if_neg fun h => absurd h.1 (Nat.not_lt.2 hi)]

theorem bitPolynomial_congr {n : Nat} {bit bit' : Nat → Bool} (h : ∀ i < n, bit i = bit' i) :
    bitPolynomial n bit = bitPolynomial n bit' :=
  Finset.sum_congr rfl fun i hi => by rw [h i (Finset.mem_range.1 hi)]

theorem bitPolynomial_xor (n : Nat) (bit bit' : Nat → Bool) :
    bitPolynomial n (fun i => bit i ^^ bit' i) = bitPolynomial n bit + bitPolynomial n bit' := by
  ext i
  simp only [coeff_add, coeff_bitPolynomial]
  by_cases hi : i < n
  · cases bit i <;> cases bit' i <;> simp [hi, CharTwo.add_self_eq_zero]
  · simp [hi]

theorem bit_eq_of_bitPolynomial_eq {n : Nat} {bit bit' : Nat → Bool}
    (h : bitPolynomial n bit = bitPolynomial n bit') (i : Nat) (hi : i < n) : bit i = bit' i := by
  have hc := congrArg (fun p : (ZMod 2)[X] => p.coeff i) h
  simp only [coeff_bitPolynomial, hi, true_and] at hc
  cases hb : bit i <;> cases hb' : bit' i <;> simp_all

/-! ## Words in reflected order -/

/-- The polynomial of a word in reflected order: the bit `i` places below the highest one is the
coefficient of `X ^ i`. -/
noncomputable def reflected {w : Nat} (x : BitVec w) : (ZMod 2)[X] := bitPolynomial w x.getMsbD

theorem coeff_reflected {w : Nat} (x : BitVec w) (i : Nat) :
    (reflected x).coeff i = if x.getMsbD i then 1 else 0 := by
  rw [reflected, coeff_bitPolynomial]
  by_cases hi : i < w
  · simp [hi]
  · simp [hi, BitVec.getMsbD_of_ge x i (Nat.le_of_not_lt hi)]

theorem reflected_xor {w : Nat} (x y : BitVec w) :
    reflected (x ^^^ y) = reflected x + reflected y := by
  rw [reflected, reflected, reflected, ← bitPolynomial_xor]
  exact bitPolynomial_congr fun i _ => BitVec.getMsbD_xor

theorem reflected_zero (w : Nat) : reflected (0#w) = 0 := by
  ext i
  simp [coeff_reflected]

theorem reflected_injective {w : Nat} : Function.Injective (reflected (w := w)) := by
  intro x y h
  apply BitVec.eq_of_getMsbD_eq
  intro i hi
  exact bit_eq_of_bitPolynomial_eq h i hi

theorem degree_reflected_lt {w : Nat} (x : BitVec w) : (reflected x).degree < w :=
  degree_bitPolynomial_lt w x.getMsbD

/-- The high part of a word has the low powers. -/
theorem reflected_append {v w : Nat} (x : BitVec v) (y : BitVec w) :
    reflected (x ++ y) = reflected x + reflected y * X ^ v := by
  ext i
  rw [coeff_add, coeff_mul_X_pow', coeff_reflected, coeff_reflected, coeff_reflected,
    BitVec.getMsbD_append]
  by_cases hi : v ≤ i
  · simp [hi]
  · simp [hi]

/-- A word moved down by one place is multiplied by `X`, but for the bit that leaves it. -/
theorem reflected_ushiftRight_one {w : Nat} (x : BitVec w) :
    reflected (x >>> 1) = reflected x * X + if x.getMsbD (w - 1) then X ^ w else 0 := by
  ext i
  rw [coeff_add, coeff_reflected, BitVec.getMsbD_ushiftRight, apply_ite (fun p => coeff p i),
    coeff_X_pow, coeff_zero]
  cases i with
  | zero =>
    by_cases hw : w = 0
    · subst hw
      simp
    · simp [Ne.symm hw]
  | succ i =>
    rw [coeff_mul_X, coeff_reflected]
    by_cases hlast : i + 1 = w
    · have hi : w - 1 = i := by omega
      cases hb : x.getMsbD i <;> simp [hlast, hi, hb, CharTwo.add_self_eq_zero]
    · by_cases hi : i + 1 < w
      · simp [hi, hlast]
      · simp [hi, hlast, BitVec.getMsbD_of_ge x i (by omega)]

/-! ## The Castagnoli polynomial -/

/-- `X ^ 32` and the lower terms in normal order. -/
noncomputable def castagnoli : (ZMod 2)[X] :=
  X ^ 32 + bitPolynomial 32 (Nat.testBit 0x1EDC6F41)

theorem castagnoli_monic : castagnoli.Monic :=
  monic_X_pow_add (degree_bitPolynomial_lt 32 _)

theorem degree_castagnoli : castagnoli.degree = 32 := by
  rw [castagnoli, degree_add_eq_left_of_degree_lt]
  · exact degree_X_pow 32
  · rw [degree_X_pow]
    exact degree_bitPolynomial_lt 32 _

/-- The register's constant is the polynomial's lower part in reflected order. -/
theorem castagnoli_eq : castagnoli = X ^ 32 + reflected polynomial.toBitVec := by
  have hbits : ∀ i < 32, Nat.testBit 0x1EDC6F41 i = polynomial.toBitVec.getMsbD i := by decide
  rw [castagnoli, reflected, bitPolynomial_congr hbits]

/-- Polynomials modulo the Castagnoli polynomial. -/
abbrev Residue : Type := AdjoinRoot castagnoli

theorem eq_modByMonic {p q : (ZMod 2)[X]} (hp : p.degree < 32)
    (h : AdjoinRoot.mk castagnoli p = AdjoinRoot.mk castagnoli q) : p = q %ₘ castagnoli := by
  have hmod := congrArg (AdjoinRoot.modByMonicHom castagnoli_monic) h
  rw [AdjoinRoot.modByMonicHom_mk, AdjoinRoot.modByMonicHom_mk] at hmod
  rwa [(modByMonic_eq_self_iff castagnoli_monic).2 (by rwa [degree_castagnoli])] at hmod

/-! ## Registers as residues -/

/-- The residue that a register stands for. -/
noncomputable def residue (r : UInt32) : Residue := AdjoinRoot.mk castagnoli (reflected r.toBitVec)

/-- Registers are polynomials of degree below 32, so no two of them are in one residue class. -/
theorem residue_injective : Function.Injective residue := by
  intro r r' h
  apply UInt32.toBitVec_inj.1
  apply reflected_injective
  rw [eq_modByMonic (degree_reflected_lt _) h]
  exact (eq_modByMonic (degree_reflected_lt _) rfl).symm

theorem residue_zero : residue 0 = 0 := by
  rw [residue]
  exact (congrArg _ (reflected_zero 32)).trans (map_zero _)

theorem residue_xor (a b : UInt32) : residue (a ^^^ b) = residue a + residue b := by
  rw [residue, UInt32.toBitVec_xor, reflected_xor, map_add, residue, residue]

/-- A shift multiplies by `X`, and where that gives `X ^ 32` the polynomial is subtracted. -/
theorem reflected_shift (r : UInt32) :
    reflected (shift r).toBitVec =
      reflected r.toBitVec * X + if r.toBitVec.getLsbD 0 then castagnoli else 0 := by
  have hlow : r.toBitVec.getMsbD 31 = r.toBitVec.getLsbD 0 := by simp [BitVec.getMsbD_eq_getLsbD]
  rw [toBitVec_shift, reflected_xor, reflected_ushiftRight_one, hlow]
  split
  · rw [castagnoli_eq, add_assoc]
  · rw [add_zero, reflected_zero, add_zero]

theorem residue_shift (r : UInt32) :
    residue (shift r) = residue r * AdjoinRoot.root castagnoli := by
  rw [residue, reflected_shift, map_add, map_mul, AdjoinRoot.mk_X, residue]
  split
  · rw [AdjoinRoot.mk_self, add_zero]
  · rw [map_zero, add_zero]

theorem residue_shifts (n : Nat) (r : UInt32) :
    residue (shifts n r) = residue r * AdjoinRoot.root castagnoli ^ n := by
  induction n generalizing r with
  | zero => rw [shifts, pow_zero, mul_one]
  | succ n ih => rw [shifts, ih, residue_shift, pow_succ', mul_assoc]

end KeyDigest.Crc
