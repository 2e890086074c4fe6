import KeyDigest.Proofs.Crc.Polynomial

/-!
# Folding bytes is taking a remainder

A byte string is a polynomial too, in the order in which the register takes its bits in: the bytes
in order, of each byte the lowest bit first, the first of all bits with the highest power. Folding
it into a register leaves the remainder of the register, scaled by the length of the string, plus
the string, scaled by the width of the register.

**Theorem (`update_eq_remainder`).** This holds of every register and every byte string, and the
table entry of a byte is the remainder of the byte times `X ^ 32`.
-/

namespace KeyDigest.Crc

open Polynomial

/-! ## Byte strings as polynomials -/

/-- Bit `j` of a byte string, each byte read from its lowest bit. -/
def streamBit (bytes : List UInt8) (j : Nat) : Bool :=
  (bytes.getD (j / 8) 0).toBitVec.getLsbD (j % 8)

/-- The polynomial of a byte string of `n` bytes, whose bit `j` is the coefficient of
`X ^ (8 * n - 1 - j)`. -/
noncomputable def message (bytes : List UInt8) : (ZMod 2)[X] :=
  bitPolynomial (8 * bytes.length) fun i => streamBit bytes (8 * bytes.length - 1 - i)

theorem message_nil : message [] = 0 := rfl

theorem streamBit_cons_of_lt (b : UInt8) (bytes : List UInt8) (j : Nat) (hj : j < 8) :
    streamBit (b :: bytes) j = b.toBitVec.getLsbD j := by
  have hdiv : j / 8 = 0 := by omega
  have hmod : j % 8 = j := by omega
  rw [streamBit, hdiv, hmod, List.getD_cons_zero]

theorem streamBit_cons_add (b : UInt8) (bytes : List UInt8) (j : Nat) :
    streamBit (b :: bytes) (j + 8) = streamBit bytes j := by
  have hdiv : (j + 8) / 8 = j / 8 + 1 := by omega
  have hmod : (j + 8) % 8 = j % 8 := by omega
  rw [streamBit, hdiv, hmod, List.getD_cons_succ, streamBit]

theorem streamBit_of_ge {bytes : List UInt8} {j : Nat} (h : 8 * bytes.length ≤ j) :
    streamBit bytes j = false := by
  rw [streamBit, List.getD_eq_default _ _ (by omega)]
  simp

theorem message_cons (b : UInt8) (bytes : List UInt8) :
    message (b :: bytes) = reflected b.toBitVec * X ^ (8 * bytes.length) + message bytes := by
  ext i
  rw [message, message, coeff_bitPolynomial, coeff_add, coeff_bitPolynomial, coeff_mul_X_pow',
    coeff_reflected, List.length_cons]
  by_cases hrest : i < 8 * bytes.length
  · -- the coefficients of the rest, whose bits moved up by one byte
    have hpos : 8 * (bytes.length + 1) - 1 - i = 8 * bytes.length - 1 - i + 8 := by omega
    have hle : ¬ 8 * bytes.length ≤ i := by omega
    have hlt : i < 8 * (bytes.length + 1) := by omega
    simp [hrest, hle, hlt, hpos, streamBit_cons_add]
  · have hle : 8 * bytes.length ≤ i := by omega
    by_cases hi : i < 8 * (bytes.length + 1)
    · -- the coefficients of the first byte
      have hpos : 8 * (bytes.length + 1) - 1 - i = 8 - 1 - (i - 8 * bytes.length) := by omega
      have hlt : i - 8 * bytes.length < 8 := by omega
      rw [hpos, streamBit_cons_of_lt _ _ _ (by omega), BitVec.getMsbD_eq_getLsbD]
      simp [hrest, hle, hi, hlt]
    · have hge : 8 ≤ i - 8 * bytes.length := by omega
      simp [hrest, hle, hi, BitVec.getMsbD_of_ge _ _ hge]

/-! ## The table and the update -/

/-- A byte at the low end of a register has the highest powers. -/
theorem reflected_toUInt32 (b : UInt8) :
    reflected b.toUInt32.toBitVec = reflected b.toBitVec * X ^ 24 := by
  have happend : b.toUInt32.toBitVec = 0#24 ++ b.toBitVec := by
    rw [UInt8.toBitVec_toUInt32]
    apply BitVec.eq_of_getLsbD_eq
    intro i hi
    rw [BitVec.getLsbD_setWidth, BitVec.getLsbD_append]
    by_cases h : i < 8
    · simp [h, hi]
    · simp [h, BitVec.getLsbD_of_ge b.toBitVec i (by omega)]
  rw [happend, reflected_append, reflected_zero, zero_add]

theorem residue_toUInt32 (b : UInt8) :
    residue b.toUInt32 =
      AdjoinRoot.mk castagnoli (reflected b.toBitVec) * AdjoinRoot.root castagnoli ^ 24 := by
  rw [residue, reflected_toUInt32, map_mul, map_pow, AdjoinRoot.mk_X]

theorem residue_step (r : UInt32) (b : UInt8) :
    residue (step r b) =
      residue r * AdjoinRoot.root castagnoli ^ 8 +
        AdjoinRoot.mk castagnoli (reflected b.toBitVec) * AdjoinRoot.root castagnoli ^ 32 := by
  rw [step_eq_shifts, residue_shifts, residue_xor, residue_toUInt32]
  ring

theorem residue_update (bytes : List UInt8) (r : UInt32) :
    residue (update r bytes) =
      residue r * AdjoinRoot.root castagnoli ^ (8 * bytes.length) +
        AdjoinRoot.mk castagnoli (message bytes) * AdjoinRoot.root castagnoli ^ 32 := by
  induction bytes generalizing r with
  | nil => rw [update_nil, message_nil, map_zero, List.length_nil]; ring
  | cons b bytes ih =>
    rw [update_cons, ih, residue_step, message_cons, map_add, map_mul, map_pow, AdjoinRoot.mk_X,
      List.length_cons]
    ring

theorem residue_table (b : UInt8) :
    residue (table[b.toFin]) =
      AdjoinRoot.mk castagnoli (reflected b.toBitVec) * AdjoinRoot.root castagnoli ^ 32 := by
  have hentry : table[b.toFin] = shifts 8 b.toUInt32 := by
    have hindex : b.toNat.toUInt32 = b.toUInt32 := UInt32.toNat_inj.1 (by simp)
    rw [← hindex]
    simp only [table, Fin.getElem_fin, Vector.getElem_ofFn]
    rfl
  rw [hentry, residue_shifts, residue_toUInt32]
  ring

/-- **Folding takes a remainder.** The updated register is the remainder of
`r * X ^ (8 * n) + m * X ^ 32` modulo the Castagnoli polynomial, for a string `m` of `n` bytes, and
the table holds the remainders of the bytes times `X ^ 32`. -/
theorem update_eq_remainder :
    (∀ (r : UInt32) (bytes : List UInt8),
      reflected (update r bytes).toBitVec =
        (reflected r.toBitVec * X ^ (8 * bytes.length) + message bytes * X ^ 32) %ₘ castagnoli) ∧
    ∀ b : UInt8, reflected (table[b.toFin]).toBitVec =
      (reflected b.toBitVec * X ^ 32) %ₘ castagnoli := by
  constructor
  · intro r bytes
    apply eq_modByMonic (degree_reflected_lt _)
    rw [map_add, map_mul, map_mul, map_pow, map_pow, AdjoinRoot.mk_X]
    exact residue_update bytes r
  · intro b
    apply eq_modByMonic (degree_reflected_lt _)
    rw [map_mul, map_pow, AdjoinRoot.mk_X]
    exact residue_table b

/-- The digits from one to nine, with the inversions that the common CRC-32C has and the register
has not. -/
example : ~~~update 0xFFFFFFFF [0x31, 0x32, 0x33, 0x34, 0x35, 0x36, 0x37, 0x38, 0x39] =
    0xE3069283 := by
  decide +kernel

end KeyDigest.Crc
