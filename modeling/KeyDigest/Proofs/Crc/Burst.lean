import KeyDigest.Proofs.Words.Bits

/-!
# What folding cannot lose

Folding a byte string is a bijection of the register and linear in the register and the string
together. It also tells apart any two strings of one length whose differing bits lie close
together: the difference is then a short polynomial times a power of `X`, and the Castagnoli
polynomial, which has a constant term, divides no such product.

* `castagnoli_coprime_X_pow`: no power of `X` has a factor in common with the polynomial.
* `update_ne_of_differWithin`: differences within 32 places are never lost.

**Theorem (`folding_loses_nothing`).** All of this for byte strings, and for the words that the
software kernel folds.
-/

namespace KeyDigest.Crc

open LittleEndian Polynomial

/-! ## Bijections of the register -/

theorem bijective_of_injective {f : UInt32 → UInt32} (h : Function.Injective f) :
    Function.Bijective f := by
  have hfinite : Finite UInt32 :=
    Finite.of_injective UInt32.toBitVec fun _ _ => UInt32.toBitVec_inj.1
  exact Finite.injective_iff_bijective.1 h

theorem step_injective (b : UInt8) : Function.Injective fun r => step r b := by
  intro r r' h
  simp only [step_eq_shifts] at h
  exact (UInt32.xor_left_inj b.toUInt32).1 (shifts_injective 8 h)

theorem update_injective (bytes : List UInt8) : Function.Injective fun r => update r bytes := by
  induction bytes with
  | nil => exact fun _ _ h => h
  | cons b bytes ih => exact fun _ _ h => step_injective b (ih h)

/-! ## Linearity -/

theorem step_xor (r r' : UInt32) (b b' : UInt8) :
    step (r ^^^ r') (b ^^^ b') = step r b ^^^ step r' b' := by
  rw [step_eq_shifts, step_eq_shifts, step_eq_shifts, ← shifts_xor, UInt8.toUInt32_xor]
  congr 1
  ac_rfl

theorem update_xor {bytes bytes' : List UInt8} (h : bytes.length = bytes'.length)
    (r r' : UInt32) :
    update (r ^^^ r') (List.zipWith (· ^^^ ·) bytes bytes') =
      update r bytes ^^^ update r' bytes' := by
  induction bytes generalizing bytes' r r' with
  | nil =>
    rw [List.eq_nil_of_length_eq_zero h.symm]
    rfl
  | cons b bytes ih =>
    obtain ⟨b', bytes', rfl⟩ := List.exists_cons_of_length_eq_add_one h.symm
    rw [List.zipWith_cons_cons, update_cons, update_cons, update_cons, step_xor]
    exact ih (Nat.succ.inj h) _ _

/-! ## Differences within a few places -/

/-- All places where two rows of bits differ lie within `n` consecutive places. -/
def DifferWithin (n : Nat) (bit bit' : Nat → Bool) : Prop :=
  ∃ start, ∀ i, bit i ≠ bit' i → start ≤ i ∧ i < start + n

/-- Coefficients within `w` consecutive powers are a polynomial of degree below `w`, moved up. -/
theorem exists_eq_mul_X_pow {n w start : Nat} {bit : Nat → Bool}
    (h : ∀ i < n, bit i = true → start ≤ i ∧ i < start + w) :
    ∃ q : (ZMod 2)[X], q.degree < w ∧ bitPolynomial n bit = q * X ^ start := by
  refine ⟨bitPolynomial w fun i => decide (i + start < n) && bit (i + start),
    degree_bitPolynomial_lt _ _, ?_⟩
  ext i
  rw [coeff_mul_X_pow', coeff_bitPolynomial]
  by_cases hi : i < n ∧ bit i = true
  · have hwithin := h i hi.1 hi.2
    have hsub : i - start + start = i := by omega
    have hlt : i - start < w := by omega
    simp [hi, hwithin.1, coeff_bitPolynomial, hsub, hlt]
  · by_cases hstart : start ≤ i
    · have hsub : i - start + start = i := by omega
      have hclear : (decide (i < n) && bit i) = false := by simpa using hi
      simp [hi, hstart, coeff_bitPolynomial, hsub, hclear]
    · simp [hi, hstart]

theorem castagnoli_coprime_X_pow (n : Nat) : IsCoprime castagnoli (X ^ n) := by
  have hconstant : castagnoli.coeff 0 = 1 := by
    rw [castagnoli, coeff_add, coeff_bitPolynomial, coeff_X_pow]
    decide
  have hX : ¬ X ∣ castagnoli := by
    rw [X_dvd_iff, hconstant]
    exact one_ne_zero
  exact ((irreducible_X.coprime_iff_not_dvd).2 hX).symm.pow_right

/-- No polynomial of degree below 32 is lost, however far it is moved up. -/
theorem eq_zero_of_castagnoli_dvd {q : (ZMod 2)[X]} {n : Nat} (hq : q.degree < 32)
    (h : castagnoli ∣ q * X ^ n) : q = 0 :=
  eq_zero_of_dvd_of_degree_lt ((castagnoli_coprime_X_pow n).dvd_of_dvd_mul_right h)
    (by rwa [degree_castagnoli])

/-- The sum of two strings that differ within `w` places is short, but for a power of `X`. -/
theorem exists_message_add_eq {bytes bytes' : List UInt8} {w : Nat}
    (hlen : bytes.length = bytes'.length)
    (h : DifferWithin w (streamBit bytes) (streamBit bytes')) :
    ∃ (q : (ZMod 2)[X]) (n : Nat), q.degree < w ∧
      message bytes + message bytes' = q * X ^ n := by
  obtain ⟨start, hwithin⟩ := h
  rw [message, message, ← hlen, ← bitPolynomial_xor]
  -- The first bit has the highest power, so the powers are counted from the other end.
  obtain ⟨q, hq⟩ : ∃ q : (ZMod 2)[X], q.degree < w ∧
      bitPolynomial (8 * bytes.length) (fun i => streamBit bytes (8 * bytes.length - 1 - i) ^^
        streamBit bytes' (8 * bytes.length - 1 - i)) =
        q * X ^ (8 * bytes.length - (start + w)) := by
    apply exists_eq_mul_X_pow
    intro i hi hbit
    have hplace := hwithin (8 * bytes.length - 1 - i) (by simpa using hbit)
    omega
  exact ⟨q, _, hq⟩

theorem eq_of_streamBit {bytes bytes' : List UInt8} (hlen : bytes.length = bytes'.length)
    (h : ∀ j < 8 * bytes.length, streamBit bytes j = streamBit bytes' j) : bytes = bytes' := by
  apply List.ext_getElem hlen
  intro k hk hk'
  apply UInt8.toBitVec_inj.1
  apply BitVec.eq_of_getLsbD_eq
  intro i hi
  have hdiv : (8 * k + i) / 8 = k := by omega
  have hmod : (8 * k + i) % 8 = i := by omega
  have hbit := h (8 * k + i) (by omega)
  rwa [streamBit, streamBit, hdiv, hmod, List.getD_eq_getElem _ _ hk,
    List.getD_eq_getElem _ _ hk'] at hbit

theorem eq_of_message_eq {bytes bytes' : List UInt8} (hlen : bytes.length = bytes'.length)
    (h : message bytes = message bytes') : bytes = bytes' := by
  rw [message, message, ← hlen] at h
  apply eq_of_streamBit hlen
  intro j hj
  have hbit := bit_eq_of_bitPolynomial_eq h (8 * bytes.length - 1 - j) (by omega)
  have hsub : 8 * bytes.length - 1 - (8 * bytes.length - 1 - j) = j := by omega
  rwa [hsub] at hbit

/-- Two strings collide only if the polynomial divides their sum. -/
theorem castagnoli_dvd_of_update_eq {bytes bytes' : List UInt8}
    (hlen : bytes.length = bytes'.length) {r : UInt32} (h : update r bytes = update r bytes') :
    castagnoli ∣ (message bytes + message bytes') * X ^ 32 := by
  have hresidue := congrArg residue h
  rw [residue_update, residue_update, hlen, add_right_inj, ← AdjoinRoot.mk_X, ← map_pow,
    ← map_mul, ← map_mul, AdjoinRoot.mk_eq_mk, ← sub_mul, CharTwo.sub_eq_add] at hresidue
  exact hresidue

/-- **Differences within 32 places are never lost.** -/
theorem update_ne_of_differWithin {bytes bytes' : List UInt8}
    (hlen : bytes.length = bytes'.length) (hne : bytes ≠ bytes')
    (h : DifferWithin 32 (streamBit bytes) (streamBit bytes')) (r : UInt32) :
    update r bytes ≠ update r bytes' := by
  intro heq
  obtain ⟨q, n, hdegree, hq⟩ := exists_message_add_eq hlen h
  have hdvd := castagnoli_dvd_of_update_eq hlen heq
  rw [hq, mul_assoc, ← pow_add] at hdvd
  have hsum : message bytes + message bytes' = 0 := by
    rw [hq, eq_zero_of_castagnoli_dvd hdegree hdvd, zero_mul]
  exact hne (eq_of_message_eq hlen (CharTwo.add_eq_zero.1 hsum))

/-! ## Words -/

theorem octets64_injective : Function.Injective octets64 :=
  Function.LeftInverse.injective word64_octets64

theorem fold64_ne_of_differWithin {w w' : UInt64} (hne : w ≠ w')
    (h : DifferWithin 32 w.toBitVec.getLsbD w'.toBitVec.getLsbD) (r : UInt32) :
    Kernel.software.fold64 r w ≠ Kernel.software.fold64 r w' := by
  have hlen : (octets64 w).length = (octets64 w').length := by
    rw [length_octets64, length_octets64]
  obtain ⟨start, hwithin⟩ := h
  show update r (octets64 w) ≠ update r (octets64 w')
  apply update_ne_of_differWithin hlen fun heq => hne (octets64_injective heq)
  refine ⟨start, fun j hj => hwithin j ?_⟩
  rwa [streamBit_octets64, streamBit_octets64] at hj

theorem fold32_injective_word (r : UInt32) :
    Function.Injective (Kernel.software.fold32 r) := by
  intro w w' h
  rw [fold32_eq_shifts, fold32_eq_shifts] at h
  exact (UInt32.xor_right_inj r).1 (shifts_injective 32 h)

/-- **Folding loses nothing it can keep.** Folding a byte string is a bijection of the register; it
is linear in the register and the string together; and two strings of one length whose differing
bits lie within 32 consecutive places, in the order in which the register takes them in, never give
the same register. The folds of words have these properties too, and folding a 32-bit word into a
given register is a bijection of the word. -/
theorem folding_loses_nothing :
    ((∀ bytes, Function.Bijective fun r => update r bytes) ∧
      (∀ r r' bytes bytes', bytes.length = bytes'.length →
        update (r ^^^ r') (List.zipWith (· ^^^ ·) bytes bytes') =
          update r bytes ^^^ update r' bytes') ∧
      ∀ r bytes bytes', bytes.length = bytes'.length → bytes ≠ bytes' →
        DifferWithin 32 (streamBit bytes) (streamBit bytes') →
          update r bytes ≠ update r bytes') ∧
    ((∀ w, Function.Bijective fun r => Kernel.software.fold32 r w) ∧
      (∀ r r' w w', Kernel.software.fold32 (r ^^^ r') (w ^^^ w') =
        Kernel.software.fold32 r w ^^^ Kernel.software.fold32 r' w') ∧
      ∀ r, Function.Bijective (Kernel.software.fold32 r)) ∧
    (∀ w, Function.Bijective fun r => Kernel.software.fold64 r w) ∧
    (∀ r r' w w', Kernel.software.fold64 (r ^^^ r') (w ^^^ w') =
      Kernel.software.fold64 r w ^^^ Kernel.software.fold64 r' w') ∧
    ∀ r (w w' : UInt64), w ≠ w' → DifferWithin 32 w.toBitVec.getLsbD w'.toBitVec.getLsbD →
      Kernel.software.fold64 r w ≠ Kernel.software.fold64 r w' := by
  refine ⟨⟨?_, ?_, ?_⟩, ⟨?_, fold32_xor, ?_⟩, ?_, fold64_xor, ?_⟩
  · intro bytes
    exact bijective_of_injective (update_injective bytes)
  · intro r r' bytes bytes' hlen
    exact update_xor hlen r r'
  · intro r bytes bytes' hlen hne h
    exact update_ne_of_differWithin hlen hne h r
  · intro w
    exact bijective_of_injective (fold32_injective_register w)
  · intro r
    exact bijective_of_injective (fold32_injective_word r)
  · intro w
    exact bijective_of_injective (fold64_injective_register w)
  · intro r w w' hne h
    exact fold64_ne_of_differWithin hne h r

/-- The last bit of one byte and the first bit of the next are neighbours. -/
theorem folding_loses_nothing_across_bytes :
    ([1, 2, 3, 0x80, 5, 6] : List UInt8).length = ([1, 2, 3, 0, 4, 6] : List UInt8).length ∧
    ([1, 2, 3, 0x80, 5, 6] : List UInt8) ≠ [1, 2, 3, 0, 4, 6] ∧
    DifferWithin 32 (streamBit [1, 2, 3, 0x80, 5, 6]) (streamBit [1, 2, 3, 0, 4, 6]) ∧
    update 7 [1, 2, 3, 0x80, 5, 6] ≠ update 7 [1, 2, 3, 0, 4, 6] ∧
    update (7 ^^^ 9) (List.zipWith (· ^^^ ·) [1, 2, 3, 0x80, 5, 6] [1, 2, 3, 0, 4, 6]) =
      update 7 [1, 2, 3, 0x80, 5, 6] ^^^ update 9 [1, 2, 3, 0, 4, 6] ∧
    (0x8000 : UInt64) ≠ 0x10000 ∧
    DifferWithin 32 (0x8000 : UInt64).toBitVec.getLsbD (0x10000 : UInt64).toBitVec.getLsbD ∧
    Kernel.software.fold64 7 0x8000 ≠ Kernel.software.fold64 7 0x10000 := by
  have hlen : ([1, 2, 3, 0x80, 5, 6] : List UInt8).length =
      ([1, 2, 3, 0, 4, 6] : List UInt8).length := rfl
  have hne : ([1, 2, 3, 0x80, 5, 6] : List UInt8) ≠ [1, 2, 3, 0, 4, 6] := by decide
  have hwithin :
      DifferWithin 32 (streamBit [1, 2, 3, 0x80, 5, 6]) (streamBit [1, 2, 3, 0, 4, 6]) := by
    have hplaces : ∀ j < 48, streamBit [1, 2, 3, 0x80, 5, 6] j ≠ streamBit [1, 2, 3, 0, 4, 6] j →
        31 ≤ j ∧ j < 31 + 32 := by decide
    refine ⟨31, fun j hj => hplaces j ?_ hj⟩
    by_contra hge
    have hdiv : 6 ≤ j / 8 := by omega
    rw [streamBit, streamBit, List.getD_eq_default _ _ hdiv, List.getD_eq_default _ _ hdiv] at hj
    exact hj rfl
  have hne64 : (0x8000 : UInt64) ≠ 0x10000 := by decide
  have hwithin64 :
      DifferWithin 32 (0x8000 : UInt64).toBitVec.getLsbD (0x10000 : UInt64).toBitVec.getLsbD := by
    have hplaces : ∀ j < 64, (0x8000 : UInt64).toBitVec.getLsbD j ≠
        (0x10000 : UInt64).toBitVec.getLsbD j → 15 ≤ j ∧ j < 15 + 32 := by decide
    refine ⟨15, fun j hj => hplaces j ?_ hj⟩
    by_contra hge
    rw [BitVec.getLsbD_of_ge _ j (by omega), BitVec.getLsbD_of_ge _ j (by omega)] at hj
    exact hj rfl
  obtain ⟨⟨-, hlinear, hburst⟩, -, -, -, hburst64⟩ := folding_loses_nothing
  exact ⟨hlen, hne, hwithin, hburst 7 _ _ hlen hne hwithin, hlinear 7 9 _ _ hlen, hne64,
    hwithin64, hburst64 7 _ _ hne64 hwithin64⟩

end KeyDigest.Crc
