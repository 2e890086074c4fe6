import KeyDigest.Proofs.Crc.Burst

/-!
# Registers that come back

A register that `n` shifts give back is one whose polynomial times `X ^ n + 1` is a multiple of the
Castagnoli polynomial. That polynomial has no square factor, because it has no factor in common
with its derivative, and over two elements `X ^ (n * 2 ^ j) + 1` is a power of `X ^ n + 1`. So a
register that comes back after `n * 2 ^ j` shifts has come back after `n` of them before.

* `castagnoli_squarefree`: no square divides the Castagnoli polynomial.
* `shifts_mul_two_pow_eq_self_iff`: doubling the number of shifts brings back no other register.
* `shift_eq_self_iff`: a single shift gives back one register other than zero.
* `shifts_octet_ne_self`: no byte at the low end of a register comes back within 24 shifts, nor
  after twice, four times, … as many.
-/

namespace KeyDigest.Crc

open Polynomial

/-! ## No square factor -/

/-- Only the odd powers have a derivative. -/
theorem derivative_bitPolynomial (n : Nat) (bit : Nat → Bool) :
    derivative (bitPolynomial n bit) =
      bitPolynomial (n - 1) fun i => bit (i + 1) && i % 2 == 0 := by
  ext i
  have hlt : i + 1 < n ↔ i < n - 1 := by omega
  have hparity : ((i : ZMod 2) + 1) = if i % 2 = 0 then 1 else 0 := by
    rw [← Nat.cast_succ]
    rcases Nat.mod_two_eq_zero_or_one i with h | h
    · rw [if_pos h, (ZMod.natCast_eq_one_iff_odd).2 (Nat.odd_iff.2 (by omega))]
    · rw [if_neg (by omega), (ZMod.natCast_eq_zero_iff_even).2 (Nat.even_iff.2 (by omega))]
  rw [coeff_derivative, hparity, coeff_bitPolynomial, coeff_bitPolynomial]
  cases bit (i + 1) <;> by_cases h : i % 2 = 0 <;> simp [hlt, h]

/-- The register times the polynomial of degree below `n` with the given bits. -/
def product (r : UInt32) (bit : Nat → Bool) : Nat → UInt32
  | 0 => 0
  | n + 1 => product r bit n ^^^ if bit n then shifts n r else 0

theorem residue_product (r : UInt32) (bit : Nat → Bool) (n : Nat) :
    residue (product r bit n) = residue r * AdjoinRoot.mk castagnoli (bitPolynomial n bit) := by
  induction n with
  | zero => exact residue_zero.trans (mul_zero _).symm
  | succ n ih =>
    rw [product, residue_xor, ih, bitPolynomial, bitPolynomial, Finset.sum_range_succ, map_add,
      mul_add]
    split
    · rw [residue_shifts, map_pow, AdjoinRoot.mk_X]
    · rw [residue_zero, map_zero, mul_zero]

/-- The highest bit of a register is the constant coefficient. -/
theorem residue_one : residue 0x80000000 = 1 := by
  have hone : reflected (0x80000000 : UInt32).toBitVec = 1 := by
    ext i
    have hbits : ∀ i < 32, (0x80000000 : UInt32).toBitVec.getMsbD i = decide (i = 0) := by decide
    rw [reflected, coeff_bitPolynomial, coeff_one]
    by_cases hi : i < 32
    · rw [hbits i hi]
      simp [hi]
    · have hne : i ≠ 0 := by omega
      simp [hi, hne]
  rw [residue, hone, map_one]

/-- The derivative is a unit among the residues. -/
theorem castagnoli_separable : castagnoli.Separable := by
  have hderivative : derivative castagnoli =
      bitPolynomial 31 fun i => Nat.testBit 0x1EDC6F41 (i + 1) && i % 2 == 0 := by
    have htop : derivative (X ^ 32 : (ZMod 2)[X]) = 0 := by
      have hcast : ((32 : Nat) : ZMod 2) = 0 := by decide
      rw [derivative_X_pow, hcast, C_0, zero_mul]
    rw [castagnoli, derivative_add, htop, zero_add, derivative_bitPolynomial]
  -- Euclid's algorithm finds the inverse, and here it is only multiplied out.
  have hinverse : product 0xCB8CBF88
      (fun i => Nat.testBit 0x1EDC6F41 (i + 1) && i % 2 == 0) 31 = 0x80000000 := by
    decide
  have hunit := residue_product 0xCB8CBF88
    (fun i => Nat.testBit 0x1EDC6F41 (i + 1) && i % 2 == 0) 31
  rw [hinverse, residue_one, ← hderivative, residue, ← map_mul,
    ← map_one (AdjoinRoot.mk castagnoli), AdjoinRoot.mk_eq_mk] at hunit
  obtain ⟨q, hq⟩ := hunit
  exact ⟨q, _, by rw [mul_comm q, ← hq, sub_add_cancel]⟩

theorem castagnoli_squarefree : Squarefree castagnoli :=
  castagnoli_separable.squarefree

/-! ## Registers that shifts give back -/

theorem shifts_eq_self_iff_dvd (n : Nat) (r : UInt32) :
    shifts n r = r ↔ castagnoli ∣ reflected r.toBitVec * (X ^ n + 1) := by
  rw [← residue_injective.eq_iff, residue_shifts, residue, ← AdjoinRoot.mk_X, ← map_pow, ← map_mul,
    AdjoinRoot.mk_eq_mk, CharTwo.sub_eq_add, mul_add, mul_one]

/-- **Doubling the number of shifts brings back no other register.** -/
theorem shifts_mul_two_pow_eq_self_iff (n j : Nat) (r : UInt32) :
    shifts (n * 2 ^ j) r = r ↔ shifts n r = r := by
  have hpow : (X ^ (n * 2 ^ j) + 1 : (ZMod 2)[X]) = (X ^ n + 1) ^ 2 ^ j := by
    rw [add_pow_char_pow, one_pow, pow_mul]
  rw [shifts_eq_self_iff_dvd, shifts_eq_self_iff_dvd, hpow]
  constructor
  · intro h
    -- A polynomial without square factors divides what it divides a power of.
    apply castagnoli_squarefree.isRadical (2 ^ j)
    rw [mul_pow]
    exact h.trans (mul_dvd_mul_right (dvd_pow_self _ (by positivity)) _)
  · intro h
    exact h.trans (mul_dvd_mul_left _ (dvd_pow_self _ (by positivity)))

/-- A register whose low bit is clear is only moved down, and moving down gives back only zero. -/
theorem eq_zero_of_shift_eq_self {r : UInt32} (hlow : r.toBitVec.getLsbD 0 = false)
    (h : shift r = r) : r = 0 := by
  have hnext (i : Nat) : r.toBitVec.getLsbD (i + 1) = r.toBitVec.getLsbD i := by
    have hbit := getLsbD_shift r i
    rw [h, hlow, Bool.and_false, Bool.xor_false] at hbit
    exact hbit.symm
  apply eq_of_bits
  intro i _
  rw [UInt32.toBitVec_zero, BitVec.getLsbD_zero]
  induction i with
  | zero => exact hlow
  | succ i ih => rw [hnext, ih (by omega)]

/-- **One register other than zero stays as it is.** Its polynomial is the Castagnoli polynomial
without the factor `X + 1`. -/
theorem shift_eq_self_iff (r : UInt32) : shift r = r ↔ r = 0 ∨ r = 0xFCA42DAF := by
  constructor
  · intro h
    cases hlow : r.toBitVec.getLsbD 0 with
    | false => exact Or.inl (eq_zero_of_shift_eq_self hlow h)
    | true =>
      have hsum : shift (r ^^^ 0xFCA42DAF) = r ^^^ 0xFCA42DAF := by
        have hfixed : shift 0xFCA42DAF = 0xFCA42DAF := by decide
        rw [shift_xor, h, hfixed]
      have hclear : (r ^^^ 0xFCA42DAF).toBitVec.getLsbD 0 = false := by
        rw [UInt32.toBitVec_xor, BitVec.getLsbD_xor, hlow]
        decide
      exact Or.inr (UInt32.xor_eq_zero_iff.1 (eq_zero_of_shift_eq_self hclear hsum))
  · rintro (rfl | rfl) <;> decide

/-- The polynomial of a byte at the low end, times `X ^ n + 1`, is too short for a multiple. -/
theorem shifts_octet_ne_self {b : UInt8} (hb : b ≠ 0) {n : Nat} (hpos : 0 < n) (hn : n ≤ 24)
    (j : Nat) : shifts (n * 2 ^ j) b.toUInt32 ≠ b.toUInt32 := by
  rw [Ne, shifts_mul_two_pow_eq_self_iff, shifts_eq_self_iff_dvd, reflected_toUInt32,
    mul_right_comm]
  intro hdvd
  have hdegree : (reflected b.toBitVec * (X ^ n + 1)).degree < 32 := by
    have hn' : ((8 : Nat) + n : WithBot Nat) ≤ 32 := by exact_mod_cast (by omega : 8 + n ≤ 32)
    rw [degree_mul, ← C_1, degree_X_pow_add_C hpos]
    exact (WithBot.add_lt_add_right WithBot.coe_ne_bot (degree_reflected_lt _)).trans_le hn'
  have hzero := eq_zero_of_castagnoli_dvd hdegree hdvd
  have hne : (X ^ n + 1 : (ZMod 2)[X]) ≠ 0 := (monic_X_pow_add_C 1 hpos.ne').ne_zero
  have hbyte : reflected b.toBitVec = reflected (0#8) := by
    rw [(mul_eq_zero.1 hzero).resolve_right hne, reflected_zero]
  exact hb (UInt8.toBitVec_inj.1 (reflected_injective hbyte))

end KeyDigest.Crc
