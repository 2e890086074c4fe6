import Mathlib
import KeyDigest.Crc.Kernel

/-!
# Shifts of the register

Shifting is linear over xor and loses nothing, and folding is shifting: a byte is folded in by
eight shifts of the register with the byte added to its low end, a 32-bit word by 32 shifts, and a
64-bit word as its two halves.

* `step_eq_shifts`: the table step is eight shifts.
* `fold32_eq_shifts`, `fold64_eq_fold32`: what the software kernel does to a word.
* `fold32_xor`, `fold64_xor`: so the software kernel is linear too.
-/

namespace KeyDigest.Crc

open LittleEndian

/-! ## The bits of one shift -/

theorem eq_of_bits {a b : UInt32}
    (h : ∀ i < 32, a.toBitVec.getLsbD i = b.toBitVec.getLsbD i) : a = b :=
  UInt32.toBitVec_inj.1 (BitVec.eq_of_getLsbD_eq h)

theorem and_one_eq (r : UInt32) : r &&& 1 = if r.toBitVec.getLsbD 0 then 1 else 0 := by
  apply eq_of_bits
  intro i _
  by_cases hi : i = 0
  · subst hi
    cases h : r.toBitVec.getLsbD 0 <;> simp_all
  · cases h : r.toBitVec.getLsbD 0 <;> simp [BitVec.getLsbD_one, hi]

/-- The register moves down by one place, and the polynomial is added if the low bit was set. -/
theorem toBitVec_shift (r : UInt32) :
    (shift r).toBitVec =
      (r.toBitVec >>> 1) ^^^ if r.toBitVec.getLsbD 0 then polynomial.toBitVec else 0#32 := by
  rw [shift, and_one_eq, UInt32.toBitVec_xor, UInt32.toBitVec_and]
  cases r.toBitVec.getLsbD 0
  · simp
  · have hones : (0 - 1 : UInt32).toBitVec = BitVec.allOnes 32 := by decide
    simp only [if_true, hones, BitVec.and_allOnes]
    rfl

theorem getLsbD_shift (r : UInt32) (i : Nat) :
    (shift r).toBitVec.getLsbD i =
      (r.toBitVec.getLsbD (i + 1) ^^ (polynomial.toBitVec.getLsbD i && r.toBitVec.getLsbD 0)) := by
  rw [toBitVec_shift, BitVec.getLsbD_xor, BitVec.getLsbD_ushiftRight, Nat.add_comm]
  cases r.toBitVec.getLsbD 0 <;> simp

/-! ## Linearity -/

theorem shift_xor (a b : UInt32) : shift (a ^^^ b) = shift a ^^^ shift b := by
  apply eq_of_bits
  intro i _
  simp only [UInt32.toBitVec_xor, BitVec.getLsbD_xor, getLsbD_shift]
  cases a.toBitVec.getLsbD (i + 1) <;> cases b.toBitVec.getLsbD (i + 1) <;>
    cases polynomial.toBitVec.getLsbD i <;> cases a.toBitVec.getLsbD 0 <;>
    cases b.toBitVec.getLsbD 0 <;> rfl

theorem shifts_xor (n : Nat) (a b : UInt32) : shifts n (a ^^^ b) = shifts n a ^^^ shifts n b := by
  induction n generalizing a b with
  | zero => rfl
  | succ n ih => rw [shifts, shift_xor, ih, shifts, shifts]

theorem shifts_zero (n : Nat) : shifts n 0 = 0 := by
  have h := shifts_xor n 0 0
  rwa [UInt32.xor_self, UInt32.xor_self] at h

theorem shifts_add (m n : Nat) (r : UInt32) : shifts (m + n) r = shifts n (shifts m r) := by
  induction m generalizing r with
  | zero => rw [Nat.zero_add, shifts]
  | succ m ih => rw [Nat.succ_add, shifts, ih, shifts]

/-! ## Nothing is lost -/

/-- The polynomial ends in bit 31, so the top bit of a shifted register tells its old low bit. -/
theorem shift_eq_zero {r : UInt32} (h : shift r = 0) : r = 0 := by
  have hbit (i : Nat) :
      (r.toBitVec.getLsbD (i + 1) ^^
        (polynomial.toBitVec.getLsbD i && r.toBitVec.getLsbD 0)) = false := by
    rw [← getLsbD_shift r i, h]
    simp
  have htop : polynomial.toBitVec.getLsbD 31 = true := by decide
  have hlow : r.toBitVec.getLsbD 0 = false := by simpa [htop] using hbit 31
  apply eq_of_bits
  intro i hi
  cases i with
  | zero => simpa using hlow
  | succ i =>
    have hsucc := hbit i
    rw [hlow, Bool.and_false, Bool.xor_false] at hsucc
    simpa using hsucc

theorem shift_injective : Function.Injective shift := by
  intro a b h
  have hzero : shift (a ^^^ b) = 0 := by rw [shift_xor, h, UInt32.xor_self]
  exact UInt32.xor_eq_zero_iff.1 (shift_eq_zero hzero)

theorem shifts_injective (n : Nat) : Function.Injective (shifts n) := by
  induction n with
  | zero => exact fun _ _ h => h
  | succ n ih => exact fun _ _ h => shift_injective (ih h)

theorem shifts_ne_zero {r : UInt32} (hr : r ≠ 0) (n : Nat) : shifts n r ≠ 0 :=
  fun h => hr (shifts_injective n (h.trans (shifts_zero n).symm))

/-! ## A byte at a time -/

/-- A register whose low bits are clear is only moved down. -/
theorem shifts_of_low_clear (n : Nat) (r : UInt32)
    (h : ∀ i < n, r.toBitVec.getLsbD i = false) :
    (shifts n r).toBitVec = r.toBitVec >>> n := by
  induction n generalizing r with
  | zero => simp [shifts]
  | succ n ih =>
    have hshift (i : Nat) : (shift r).toBitVec.getLsbD i = r.toBitVec.getLsbD (i + 1) := by
      rw [getLsbD_shift, h 0 (by omega), Bool.and_false, Bool.xor_false]
    rw [shifts, ih (shift r) fun i hi => by rw [hshift, h (i + 1) (by omega)]]
    apply BitVec.eq_of_getLsbD_eq
    intro i _
    rw [BitVec.getLsbD_ushiftRight, BitVec.getLsbD_ushiftRight, hshift]
    congr 1
    omega

/-- **The table step is eight shifts** of the register with the byte added to its low end. -/
theorem step_eq_shifts (r : UInt32) (b : UInt8) : step r b = shifts 8 (r ^^^ b.toUInt32) := by
  -- The high bits are only moved down; the low byte is what the table is asked for.
  have hsplit : r ^^^ b.toUInt32 = (r >>> 8 <<< 8) ^^^ (r.toUInt8 ^^^ b).toUInt32 := by
    apply eq_of_bits
    intro i hi
    simp only [UInt32.toBitVec_xor, UInt8.toBitVec_toUInt32, UInt8.toBitVec_xor,
      UInt32.toBitVec_toUInt8, BitVec.getLsbD_xor, BitVec.getLsbD_setWidth, hi, decide_true,
      Bool.true_and]
    by_cases h : i < 8
    · simp [h]
    · have hadd : 8 + (i - 8) = i := by omega
      simp [h, hi, hadd]
  have hhigh : shifts 8 (r >>> 8 <<< 8) = r >>> 8 := by
    apply UInt32.toBitVec_inj.1
    rw [shifts_of_low_clear 8 _ fun i hi => by simp [hi]]
    apply BitVec.eq_of_getLsbD_eq
    intro i hi
    by_cases h : 8 + i < 32
    · simp [h]
    · simp [BitVec.getLsbD_of_ge r.toBitVec (8 + i) (by omega)]
  rw [step_eq, hsplit, shifts_xor, hhigh]

/-! ## A word at a time -/

theorem getLsbD_word32_of_ge (bytes : List UInt8) (i : Nat) (h : 8 * bytes.length ≤ i) :
    (word32 bytes).toBitVec.getLsbD i = false := by
  induction bytes generalizing i with
  | nil => simp
  | cons b bytes ih =>
    rw [List.length_cons] at h
    rw [word32_cons, UInt32.toBitVec_or, BitVec.getLsbD_or, UInt8.toBitVec_toUInt32,
      BitVec.getLsbD_setWidth, BitVec.getLsbD_of_ge b.toBitVec i (by omega)]
    simp [ih (i - 8) (by omega)]

/-- The low byte and the rest of a word have no bit in common. -/
theorem word32_cons_xor (b : UInt8) (bytes : List UInt8) :
    word32 (b :: bytes) = b.toUInt32 ^^^ (word32 bytes <<< 8) := by
  apply eq_of_bits
  intro i hi
  rw [word32_cons, UInt32.toBitVec_or, UInt32.toBitVec_xor, BitVec.getLsbD_or, BitVec.getLsbD_xor,
    UInt8.toBitVec_toUInt32, BitVec.getLsbD_setWidth]
  by_cases h : i < 8
  · simp [h]
  · simp [BitVec.getLsbD_of_ge b.toBitVec i (by omega)]

theorem shifts_eight_shiftLeft (w : UInt32) (h : ∀ i, 24 ≤ i → w.toBitVec.getLsbD i = false) :
    shifts 8 (w <<< 8) = w := by
  apply UInt32.toBitVec_inj.1
  rw [shifts_of_low_clear 8 _ fun i hi => by simp [hi]]
  apply BitVec.eq_of_getLsbD_eq
  intro i hi
  by_cases hin : 8 + i < 32
  · simp [hin, BitVec.getLsbD_eq_getElem hi]
  · rw [h i (by omega), BitVec.getLsbD_ushiftRight, BitVec.getLsbD_of_ge _ _ (by omega)]

/-- Up to four bytes are folded in at once: as the word they make, added to the register. -/
theorem update_eq_shifts (bytes : List UInt8) (h : bytes.length ≤ 4) (r : UInt32) :
    update r bytes = shifts (8 * bytes.length) (r ^^^ word32 bytes) := by
  induction bytes generalizing r with
  | nil => simp [shifts]
  | cons b bytes ih =>
    rw [List.length_cons] at h
    have hrest : shifts 8 (word32 bytes <<< 8) = word32 bytes :=
      shifts_eight_shiftLeft _ fun i hi => getLsbD_word32_of_ge bytes i (by omega)
    calc update r (b :: bytes)
        = shifts (8 * bytes.length) (shifts 8 (r ^^^ b.toUInt32) ^^^ word32 bytes) := by
          rw [update_cons, ih (by omega), step_eq_shifts]
      _ = shifts (8 * bytes.length) (shifts 8 (r ^^^ word32 (b :: bytes))) := by
          rw [word32_cons_xor, ← UInt32.xor_assoc, shifts_xor 8 (r ^^^ b.toUInt32), hrest]
      _ = shifts (8 * (b :: bytes).length) (r ^^^ word32 (b :: bytes)) := by
          rw [← shifts_add, List.length_cons, Nat.mul_succ, Nat.add_comm]

theorem fold32_eq_shifts (r w : UInt32) : Kernel.software.fold32 r w = shifts 32 (r ^^^ w) := by
  have h := update_eq_shifts (octets32 w) (Nat.le_refl 4) r
  rwa [word32_octets32] at h

theorem octets64_eq_append (w : UInt64) :
    octets64 w = octets32 w.toUInt32 ++ octets32 (w >>> 32).toUInt32 := by
  simp only [octets64, octets32, List.cons_append, List.nil_append, List.cons.injEq, and_true]
  refine ⟨?_, ?_, ?_, ?_, ?_, ?_, ?_, ?_⟩ <;> apply UInt8.toNat_inj.1 <;> simp <;> omega

/-- A 64-bit word is folded in as its low half and then its high half. -/
theorem fold64_eq_fold32 (r : UInt32) (w : UInt64) :
    Kernel.software.fold64 r w =
      Kernel.software.fold32 (Kernel.software.fold32 r w.toUInt32) (w >>> 32).toUInt32 := by
  show update r (octets64 w) = _
  rw [octets64_eq_append, update_append]
  rfl

/-- A word whose high half is zero is added to the register before all 64 shifts. -/
theorem fold64_toUInt64 (r w : UInt32) :
    Kernel.software.fold64 r w.toUInt64 = shifts 64 (r ^^^ w) := by
  have hhigh : (w.toUInt64 >>> 32).toUInt32 = 0 := by
    apply eq_of_bits
    intro i hi
    simp
  rw [fold64_eq_fold32, fold32_eq_shifts, fold32_eq_shifts, hhigh, UInt32.toUInt32_toUInt64,
    UInt32.xor_zero]
  exact (shifts_add 32 32 _).symm

/-! ## Word folds are linear and lose nothing -/

theorem fold32_xor (r r' w w' : UInt32) :
    Kernel.software.fold32 (r ^^^ r') (w ^^^ w') =
      Kernel.software.fold32 r w ^^^ Kernel.software.fold32 r' w' := by
  rw [fold32_eq_shifts, fold32_eq_shifts, fold32_eq_shifts, ← shifts_xor]
  congr 1
  ac_rfl

theorem fold64_xor (r r' : UInt32) (w w' : UInt64) :
    Kernel.software.fold64 (r ^^^ r') (w ^^^ w') =
      Kernel.software.fold64 r w ^^^ Kernel.software.fold64 r' w' := by
  rw [fold64_eq_fold32, fold64_eq_fold32, fold64_eq_fold32, ← fold32_xor, ← fold32_xor,
    UInt64.toUInt32_xor, UInt64.shiftRight_xor, UInt64.toUInt32_xor]

theorem fold64_zero : Kernel.software.fold64 0 0 = 0 := by
  have h := fold64_xor 0 0 0 0
  rwa [UInt32.xor_self, UInt32.xor_self, UInt64.xor_self] at h

/-- What a word adds to the register does not depend on the register. -/
theorem fold64_eq_xor (r : UInt32) (w : UInt64) :
    Kernel.software.fold64 r w = shifts 64 r ^^^ Kernel.software.fold64 0 w := by
  have hzero : shifts 64 r = Kernel.software.fold64 r 0 :=
    (congrArg (shifts 64) UInt32.xor_zero).symm.trans (fold64_toUInt64 r 0).symm
  rw [hzero, ← fold64_xor, UInt32.xor_zero, UInt64.zero_xor]

/-- A 32-bit word is folded in by adding it to the register, so only their sum matters. -/
theorem fold32_eq_fold32_zero (r w : UInt32) :
    Kernel.software.fold32 r w = Kernel.software.fold32 (r ^^^ w) 0 := by
  rw [fold32_eq_shifts, fold32_eq_shifts, UInt32.xor_zero]

theorem fold32_injective_register (w : UInt32) :
    Function.Injective fun r => Kernel.software.fold32 r w := by
  intro r r' h
  simp only [fold32_eq_shifts] at h
  exact (UInt32.xor_left_inj w).1 (shifts_injective 32 h)

theorem fold64_injective_register (w : UInt64) :
    Function.Injective fun r => Kernel.software.fold64 r w := by
  intro r r' h
  simp only [fold64_eq_fold32] at h
  exact fold32_injective_register _ (fold32_injective_register _ h)

end KeyDigest.Crc
