import KeyDigest.Proofs.Crc.Remainder

/-!
# The bits of a word

The lowest bit of a word is the lowest bit of its first byte, so the bits of a word, counted from
the lowest one, are those of its bytes in the order in which the register takes them in.

* `getLsbD_bits`, `streamBit_octets64`: the bits of a word made of bytes, and of the bytes of a
  word.
* `getLsbD_placed`, `reflected_placed`: a word of which a single byte is not zero.
-/

namespace KeyDigest.LittleEndian

open Crc Polynomial

/-! ## Words and their bytes -/

/-- The bit vector of `n` bits whose bytes are `bytes`, least significant first. -/
def bits (n : Nat) (bytes : List UInt8) : BitVec n :=
  bytes.foldr (fun b x => b.toBitVec.setWidth n ||| (x <<< 8)) 0#n

theorem toBitVec_word32 (bytes : List UInt8) : (word32 bytes).toBitVec = bits 32 bytes := by
  induction bytes with
  | nil => rfl
  | cons b bytes ih =>
    rw [word32_cons, UInt32.toBitVec_or, UInt32.toBitVec_shiftLeft, ih]
    rfl

theorem toBitVec_word64 (bytes : List UInt8) : (word64 bytes).toBitVec = bits 64 bytes := by
  induction bytes with
  | nil => rfl
  | cons b bytes ih =>
    rw [word64_cons, UInt64.toBitVec_or, UInt64.toBitVec_shiftLeft, ih]
    rfl

/-- The lowest bit comes first. -/
theorem getLsbD_bits {n : Nat} {bytes : List UInt8} (h : 8 * bytes.length ≤ n) (j : Nat) :
    (bits n bytes).getLsbD j = streamBit bytes j := by
  induction bytes generalizing j with
  | nil => simp [bits, streamBit]
  | cons b bytes ih =>
    have hcons : bits n (b :: bytes) = b.toBitVec.setWidth n ||| (bits n bytes <<< 8) := rfl
    rw [List.length_cons] at h
    rw [hcons, BitVec.getLsbD_or, BitVec.getLsbD_setWidth, BitVec.getLsbD_shiftLeft,
      ih (by omega)]
    by_cases hlow : j < 8
    · have hlt : j < n := by omega
      simp [streamBit_cons_of_lt _ _ _ hlow, hlow, hlt]
    · obtain ⟨i, rfl⟩ := Nat.exists_eq_add_of_le' (Nat.le_of_not_lt hlow)
      rw [BitVec.getLsbD_of_ge b.toBitVec _ (by omega), streamBit_cons_add]
      by_cases hhigh : i + 8 < n
      · simp [hhigh]
      · have hend : streamBit bytes i = false := streamBit_of_ge (by omega)
        simp [hhigh, hend]

/-- The bits of a word are taken in from the lowest one. -/
theorem streamBit_octets64 (w : UInt64) (j : Nat) :
    streamBit (octets64 w) j = w.toBitVec.getLsbD j := by
  rw [← getLsbD_bits (n := 64) (by rw [length_octets64]), ← toBitVec_word64, word64_octets64]

theorem card_word32 : Nat.card UInt32 = 2 ^ 32 := by
  rw [Nat.card_eq_of_bijective UInt32.toFin
    ⟨fun _ _ => UInt32.toFin_inj.1, fun i => ⟨UInt32.ofFin i, UInt32.toFin_ofFin i⟩⟩]
  exact Nat.card_fin UInt32.size

/-! ## Words of a single byte -/

/-- The word whose byte `i` is `b` and whose other bytes are zero. -/
def placed (b : UInt8) (i : Nat) : UInt64 := ⟨b.toBitVec.setWidth 64 <<< (8 * i)⟩

theorem getLsbD_placed (b : UInt8) {i : Nat} (hi : i < 8) (j : Nat) :
    (placed b i).toBitVec.getLsbD j = (decide (j / 8 = i) && b.toBitVec.getLsbD (j % 8)) := by
  rw [placed, BitVec.getLsbD_shiftLeft, BitVec.getLsbD_setWidth]
  by_cases h : j / 8 = i
  · have hsub : j - 8 * i = j % 8 := by omega
    have hmod : j % 8 < 64 := by omega
    have hlt : j < 64 := by omega
    have hle : ¬ j < 8 * i := by omega
    simp [h, hsub, hmod, hlt, hle]
  · by_cases hlow : j < 8 * i
    · simp [h, hlow]
    · simp [h, BitVec.getLsbD_of_ge b.toBitVec (j - 8 * i) (by omega)]

theorem reflected_placed (b : UInt8) {i : Nat} (hi : i < 8) :
    reflected (placed b i).toBitVec = reflected b.toBitVec * X ^ (8 * (7 - i)) := by
  ext k
  rw [coeff_mul_X_pow', coeff_reflected, coeff_reflected, BitVec.getMsbD_eq_getLsbD,
    BitVec.getMsbD_eq_getLsbD, getLsbD_placed b hi]
  by_cases hle : 8 * (7 - i) ≤ k
  · by_cases hlt : k < 8 * (7 - i) + 8
    · have hdiv : (64 - 1 - k) / 8 = i := by omega
      have hmod : (64 - 1 - k) % 8 = 8 - 1 - (k - 8 * (7 - i)) := by omega
      have h64 : k < 64 := by omega
      have h8 : k - 8 * (7 - i) < 8 := by omega
      rw [hdiv, hmod]
      simp [hle, h64, h8]
    · have h8 : ¬ k - 8 * (7 - i) < 8 := by omega
      by_cases h64 : k < 64
      · have hdiv : ¬ (64 - 1 - k) / 8 = i := by omega
        simp [h8, hdiv]
      · simp [h8, h64]
  · have hdiv : ¬ (64 - 1 - k) / 8 = i := by omega
    simp [hle, hdiv]

end KeyDigest.LittleEndian
