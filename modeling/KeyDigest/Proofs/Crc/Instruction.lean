import KeyDigest.Proofs.Crc.Polynomial

/-!
# The instruction and the table agree

What processors document for their CRC-32C instruction is a remainder: of the word, scaled by
`X ^ 32`, plus the register, scaled by the width of the word. Both kernels leave that remainder, one
by long division and one by the byte table, so they agree on every register and every word.

* `bitPolynomial_remainder`: long division keeps the residue class.
* `hardware_documented`, `software_documented`: both kernels do what is documented.
* `Documented.agree`: any two kernels that do so agree.
-/

namespace KeyDigest

open Polynomial Crc

/-! ## Natural numbers as polynomials -/

theorem bitPolynomial_succ_of_false {n : Nat} {bit : Nat → Bool} (h : bit n = false) :
    bitPolynomial (n + 1) bit = bitPolynomial n bit := by
  rw [bitPolynomial, Finset.sum_range_succ, h]
  exact add_zero _

theorem bitPolynomial_shiftLeft (k n p : Nat) :
    bitPolynomial (k + n) (p <<< n).testBit = bitPolynomial k p.testBit * X ^ n := by
  ext i
  rw [coeff_mul_X_pow', coeff_bitPolynomial, coeff_bitPolynomial, Nat.testBit_shiftLeft]
  by_cases hi : n ≤ i
  · have hlt : i < k + n ↔ i - n < k := by omega
    simp [hi, hlt]
  · simp [hi]

theorem bitPolynomial_testBit_xor (n p q : Nat) :
    bitPolynomial n (p ^^^ q).testBit = bitPolynomial n p.testBit + bitPolynomial n q.testBit := by
  rw [← bitPolynomial_xor]
  exact bitPolynomial_congr fun i _ => Nat.testBit_xor p q i

theorem bitPolynomial_modulus : bitPolynomial 33 Instruction.modulus.testBit = castagnoli := by
  have hbits : ∀ i < 32, Instruction.modulus.testBit i = Nat.testBit 0x1EDC6F41 i := by decide
  have htop : Instruction.modulus.testBit 32 = true := by decide
  rw [castagnoli, ← bitPolynomial_congr hbits, bitPolynomial, Finset.sum_range_succ, htop, add_comm]
  rfl

/-! ## Long division -/

theorem testBit_of_lt {n p i : Nat} (hp : p < 2 ^ n) (hi : n ≤ i) : p.testBit i = false :=
  Nat.testBit_lt_two_pow (hp.trans_le (Nat.pow_le_pow_right (by decide) hi))

/-- Where the highest bit is set, a scaled modulus is subtracted and clears it. -/
theorem xor_modulus_lt {n p : Nat} (hp : p < 2 ^ (32 + (n + 1)))
    (hbit : p.testBit (32 + n) = true) :
    p ^^^ (Instruction.modulus <<< n) < 2 ^ (32 + n) := by
  have hmodulus : Instruction.modulus < 2 ^ 33 := by decide
  have htop : Instruction.modulus.testBit 32 = true := by decide
  apply Nat.lt_pow_two_of_testBit
  intro i hi
  rw [Nat.testBit_xor, Nat.testBit_shiftLeft]
  by_cases heq : i = 32 + n
  · have hsub : 32 + n - n = 32 := by omega
    simp [heq, hbit, hsub, htop]
  · have hhigh : p.testBit i = false := testBit_of_lt hp (by omega)
    have hscaled : Instruction.modulus.testBit (i - n) = false := testBit_of_lt hmodulus (by omega)
    simp [hhigh, hscaled]

theorem bitPolynomial_remainder (n p : Nat) (hp : p < 2 ^ (32 + n)) :
    AdjoinRoot.mk castagnoli (bitPolynomial 32 (Instruction.remainder n p).testBit) =
      AdjoinRoot.mk castagnoli (bitPolynomial (32 + n) p.testBit) := by
  induction n generalizing p with
  | zero => rfl
  | succ n ih =>
    rw [Instruction.remainder]
    split
    · next hbit =>
      -- The scaled modulus is zero in the residue class.
      have hlt := xor_modulus_lt hp hbit
      have hscaled : bitPolynomial (32 + n + 1) (Instruction.modulus <<< n).testBit =
          castagnoli * X ^ n := by
        rw [← bitPolynomial_modulus, ← bitPolynomial_shiftLeft, Nat.add_right_comm]
      have hsum := bitPolynomial_testBit_xor (32 + n + 1) p (Instruction.modulus <<< n)
      rw [bitPolynomial_succ_of_false (Nat.testBit_lt_two_pow hlt), hscaled] at hsum
      rw [ih _ hlt, hsum, map_add, map_mul, AdjoinRoot.mk_self, zero_mul, add_zero]
      rfl
    · next hbit =>
      have hclear : p.testBit (32 + n) = false := by simpa using hbit
      have hlt : p < 2 ^ (32 + n) := by
        apply Nat.lt_pow_two_of_testBit
        intro i hi
        by_cases heq : i = 32 + n
        · rw [heq, hclear]
        · exact testBit_of_lt hp (by omega)
      rw [ih p hlt, ← Nat.add_assoc, bitPolynomial_succ_of_false hclear]

/-! ## The instruction -/

theorem bitPolynomial_reverse {w : Nat} (x : BitVec w) :
    bitPolynomial w x.reverse.toNat.testBit = reflected x :=
  bitPolynomial_congr fun _ _ => BitVec.getLsbD_reverse

theorem reflected_reverse_ofNat (p : Nat) :
    reflected (BitVec.ofNat 32 p).reverse = bitPolynomial 32 p.testBit := by
  refine bitPolynomial_congr fun i hi => ?_
  rw [BitVec.getMsbD_reverse, BitVec.getLsbD_ofNat]
  simp [hi]

/-- The instruction leaves the remainder of the reflected word and the reflected register, each
scaled by the width of the other. -/
theorem reflected_fold {w : Nat} (r : BitVec 32) (x : BitVec w) :
    reflected (Instruction.fold r x) =
      (reflected x * X ^ 32 + reflected r * X ^ w) %ₘ castagnoli := by
  have hword : x.reverse.toNat <<< 32 < 2 ^ (32 + w) := by
    rw [Nat.shiftLeft_eq, Nat.pow_add, Nat.mul_comm]
    exact Nat.mul_lt_mul_of_pos_left x.reverse.isLt (by decide)
  have hregister : r.reverse.toNat <<< w < 2 ^ (32 + w) := by
    rw [Nat.shiftLeft_eq, Nat.pow_add]
    exact Nat.mul_lt_mul_of_pos_right r.reverse.isLt (Nat.two_pow_pos w)
  apply eq_modByMonic (degree_reflected_lt _)
  rw [Instruction.fold, reflected_reverse_ofNat,
    bitPolynomial_remainder _ _ (Nat.xor_lt_two_pow hword hregister), bitPolynomial_testBit_xor,
    bitPolynomial_shiftLeft, Nat.add_comm 32 w, bitPolynomial_shiftLeft, bitPolynomial_reverse,
    bitPolynomial_reverse]

namespace Kernel

/-- The kernel folds as processors document it: it leaves the remainder, modulo the Castagnoli
polynomial, of the word scaled by `X ^ 32` plus the register scaled by the width of the word. -/
structure Documented (k : Kernel) : Prop where
  fold32 : ∀ r w, reflected (k.fold32 r w).toBitVec =
    (reflected w.toBitVec * X ^ 32 + reflected r.toBitVec * X ^ 32) %ₘ castagnoli
  fold64 : ∀ r w, reflected (k.fold64 r w).toBitVec =
    (reflected w.toBitVec * X ^ 32 + reflected r.toBitVec * X ^ 64) %ₘ castagnoli

/-- The documentation leaves no choice. -/
theorem Documented.agree {k k' : Kernel} (h : k.Documented) (h' : k'.Documented) :
    k.Agree k' where
  fold32 r w := by
    apply UInt32.toBitVec_inj.1
    apply reflected_injective
    rw [h.fold32, h'.fold32]
  fold64 r w := by
    apply UInt32.toBitVec_inj.1
    apply reflected_injective
    rw [h.fold64, h'.fold64]

theorem hardware_documented : Kernel.hardware.Documented where
  fold32 r w := reflected_fold r.toBitVec w.toBitVec
  fold64 r w := reflected_fold r.toBitVec w.toBitVec

/-! ## The byte table -/

theorem residue_fold32 (r w : UInt32) :
    residue (Kernel.software.fold32 r w) =
      (residue r + residue w) * AdjoinRoot.root castagnoli ^ 32 := by
  rw [fold32_eq_shifts, residue_shifts, residue_xor]

/-- The low half of a word has the high powers. -/
theorem reflected_halves (w : UInt64) :
    reflected w.toBitVec =
      reflected (w >>> 32).toUInt32.toBitVec + reflected w.toUInt32.toBitVec * X ^ 32 := by
  rw [← reflected_append]
  congr 1
  apply BitVec.eq_of_getLsbD_eq
  intro i hi
  rw [BitVec.getLsbD_append]
  by_cases h : i < 32
  · simp [h]
  · have hadd : 32 + (i - 32) = i := by omega
    have hlt : i - 32 < 32 := by omega
    simp [h, hadd, hlt]

theorem residue_fold64 (r : UInt32) (w : UInt64) :
    residue (Kernel.software.fold64 r w) =
      AdjoinRoot.mk castagnoli (reflected w.toBitVec) * AdjoinRoot.root castagnoli ^ 32 +
        residue r * AdjoinRoot.root castagnoli ^ 64 := by
  have hword : AdjoinRoot.mk castagnoli (reflected w.toBitVec) =
      residue (w >>> 32).toUInt32 + residue w.toUInt32 * AdjoinRoot.root castagnoli ^ 32 := by
    rw [reflected_halves, map_add, map_mul, map_pow, AdjoinRoot.mk_X, residue, residue]
  rw [hword, fold64_eq_fold32, residue_fold32, residue_fold32]
  ring

theorem software_documented : Kernel.software.Documented where
  fold32 r w := by
    apply eq_modByMonic (degree_reflected_lt _)
    rw [map_add, map_mul, map_mul, map_pow, AdjoinRoot.mk_X]
    exact (residue_fold32 r w).trans (by rw [add_mul, add_comm]; rfl)
  fold64 r w := by
    apply eq_modByMonic (degree_reflected_lt _)
    rw [map_add, map_mul, map_mul, map_pow, map_pow, AdjoinRoot.mk_X]
    exact residue_fold64 r w

/-- **The instruction and the table agree** on every register and every word. -/
theorem hardware_agree_software : Kernel.hardware.Agree Kernel.software :=
  hardware_documented.agree software_documented

end Kernel

end KeyDigest
