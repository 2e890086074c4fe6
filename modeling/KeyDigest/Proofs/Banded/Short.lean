import KeyDigest.Proofs.Banded.Formula
import KeyDigest.Proofs.Crc.Recurrence
import KeyDigest.Proofs.Hasher.Kernels
import KeyDigest.Proofs.Key.Words

/-!
# What a short key shows

A short key is folded as two words that may overlap. A byte of the overlap is folded twice, and
its two contributions cancel only if it comes back after as many shifts as lie between them: eight
to 64. No byte does, so no change of one byte is lost. A whole word can come back. In a key
of four bytes the two words are the same, so two such keys collide exactly if the sum of their words
is the one register that shifts leave as it is.

**Theorem (`short_shows_every_byte`).** Another byte at any place gives another digest.

**Theorem (`four_bytes_collide_in_pairs`).** Keys of four bytes collide in pairs, and reach half of
all digests.
-/

namespace KeyDigest.Banded

open Crc LittleEndian Sampling

variable {key key' : Key}

/-! ## The words of a short key -/

/-- The width of the two words of a short key of `n` bytes. -/
def shortWidth (n : Nat) : Nat := if 8 ≤ n then 8 else 4

theorem shortWords_eq (hfour : 4 ≤ key.size) :
    shortWords key = (key.wordAt (shortWidth key.size) 0,
      key.wordAt (shortWidth key.size) (key.size - shortWidth key.size)) := by
  rw [shortWords, shortWidth]
  split
  · rfl
  · rw [Key.toUInt64_word32At (by omega), Key.toUInt64_word32At (by omega)]

/-- Keys of one length differ in their digests by what their words differ in. -/
theorem shortDigest_xor (hsize : key'.size = key.size) :
    shortDigest .software key ^^^ shortDigest .software key' =
      shifts 64 (Kernel.software.fold64 0 ((shortWords key).1 ^^^ (shortWords key').1)) ^^^
        Kernel.software.fold64 0 ((shortWords key).2 ^^^ (shortWords key').2) := by
  rw [shortDigest, shortDigest, hsize, ← fold64_xor, ← fold64_xor, UInt32.xor_self, fold64_eq_xor]

/-! ## A byte folded once or twice -/

/-- A byte is shifted once for each bit from its own lowest one to the end of the word. -/
theorem fold64_placed (b : UInt8) {i : Nat} (hi : i < 8) :
    Kernel.software.fold64 0 (placed b i) = shifts (8 * (8 - i)) b.toUInt32 := by
  have hpow : 8 * (7 - i) + 32 = 24 + 8 * (8 - i) := by omega
  apply residue_injective
  rw [Kernel.residue_fold64, residue_shifts, residue_toUInt32, reflected_placed b hi, residue_zero,
    zero_mul, add_zero, map_mul, map_pow, AdjoinRoot.mk_X, mul_assoc, ← pow_add, hpow, pow_add,
    mul_assoc]

theorem toUInt32_ne_zero {b : UInt8} (hb : b ≠ 0) : b.toUInt32 ≠ 0 := by
  intro h
  exact hb (UInt8.toNat_inj.1 (by simpa using congrArg UInt32.toNat h))

theorem fold64_placed_ne_zero {b : UInt8} (hb : b ≠ 0) {i : Nat} (hi : i < 8) :
    Kernel.software.fold64 0 (placed b i) ≠ 0 := by
  rw [fold64_placed b hi]
  exact shifts_ne_zero (toUInt32_ne_zero hb) _

/-- Between the two contributions lie as many shifts as eight times a number from one to eight. -/
theorem fold64_placed_twice_ne_zero {b : UInt8} (hb : b ≠ 0) {i j : Nat} (hij : j ≤ i)
    (hi : i < 8) :
    shifts 64 (Kernel.software.fold64 0 (placed b i)) ^^^
      Kernel.software.fold64 0 (placed b j) ≠ 0 := by
  have hsplit : 8 * (8 - i) + 64 = (8 - (i - j)) * 2 ^ 3 + 8 * (8 - j) := by omega
  rw [fold64_placed b hi, fold64_placed b (by omega), ← shifts_add, hsplit, shifts_add,
    ← shifts_xor]
  apply shifts_ne_zero
  intro h
  exact shifts_octet_ne_self hb (by omega) (by omega) 3 (UInt32.xor_eq_zero_iff.1 h)

theorem shortDigest_set_ne (hfour : 4 ≤ key.size) (hshort : key.size < 16) {p : Nat}
    (hp : p < key.size) {b : UInt8} (hb : b ≠ key[p]) :
    shortDigest .software (key.set p b hp) ≠ shortDigest .software key := by
  have hsize : (key.set p b hp).size = key.size := Array.size_set ..
  have hchange : key[p] ^^^ b ≠ 0 := fun h => hb (UInt8.xor_eq_zero_iff.1 h).symm
  have hwidth : shortWidth key.size ≤ 8 ∧ shortWidth key.size ≤ key.size ∧
      key.size < 2 * shortWidth key.size := by
    rw [shortWidth]
    split <;> omega
  obtain ⟨height, hfits, hoverlap⟩ := hwidth
  intro h
  have hsum := shortDigest_xor hsize
  rw [h, UInt32.xor_self, shortWords_eq hfour, shortWords_eq (by omega), hsize,
    Key.wordAt_xor_wordAt_set height (by omega),
    Key.wordAt_xor_wordAt_set height (by omega)] at hsum
  -- The byte is in the first word, in both, or in the last.
  by_cases hfirst : p < shortWidth key.size
  · rw [if_pos ⟨by omega, by omega⟩] at hsum
    by_cases hlast : key.size - shortWidth key.size ≤ p
    · rw [if_pos ⟨hlast, by omega⟩] at hsum
      exact fold64_placed_twice_ne_zero hchange (by omega) (by omega) hsum.symm
    · rw [if_neg (by omega), fold64_zero, UInt32.xor_zero] at hsum
      exact shifts_ne_zero (fold64_placed_ne_zero hchange (by omega)) 64 hsum.symm
  · rw [if_neg (by omega), if_pos ⟨by omega, by omega⟩, fold64_zero, shifts_zero,
      UInt32.zero_xor] at hsum
    exact fold64_placed_ne_zero hchange (by omega) hsum.symm

/-- **A short key shows every byte.** On every kernel that folds as documented, replacing a byte of
a key of four to fifteen bytes by another one changes the digest, also where both words read the
byte. -/
theorem short_shows_every_byte {kernel : Kernel} (hkernel : kernel.Documented) (t : OffsetTable)
    (hfour : 4 ≤ key.size) (hshort : key.size < 16) {p : Nat} (hp : p < key.size) {b : UInt8}
    (hb : b ≠ key[p]) : digest kernel t (key.set p b hp) ≠ digest kernel t key := by
  have hsize : (key.set p b hp).size = key.size := Array.size_set ..
  have hagree := hkernel.agree Kernel.software_documented
  rw [digest_congr hagree, digest_congr hagree, digest_of_short (by omega) (by omega),
    digest_of_short hfour hshort]
  exact shortDigest_set_ne hfour hshort hp hb

/-- The byte at place 3 of six is in the middle of both words. -/
theorem short_shows_every_byte_overlap :
    Kernel.hardware.Documented ∧ 4 ≤ (#[1, 2, 3, 4, 5, 6] : Key).size ∧
    (#[1, 2, 3, 4, 5, 6] : Key).size < 16 ∧ (9 : UInt8) ≠ (#[1, 2, 3, 4, 5, 6] : Key)[3] ∧
    digest .hardware .zero (Array.set #[1, 2, 3, 4, 5, 6] 3 9 (by decide)) ≠
      digest .hardware .zero #[1, 2, 3, 4, 5, 6] :=
  ⟨Kernel.hardware_documented, by decide, by decide, by decide,
    short_shows_every_byte Kernel.hardware_documented .zero (by decide) (by decide) (by decide)
      (by decide)⟩

/-! ## Keys of four bytes -/

/-- Both words of a key of four bytes are the whole key. -/
theorem shortDigest_of_size_eq_four (hfour : key.size = 4) :
    shortDigest .software key =
      shifts 64 (shifts 64 (Kernel.software.fold32 0 4 ^^^ key.word32At 0) ^^^ key.word32At 0) := by
  rw [shortDigest, shortWords, hfour, if_neg (by decide), fold64_toUInt64, fold64_toUInt64]
  rfl

theorem shortDigest_eq_iff (hfour : key.size = 4) (hfour' : key'.size = 4) :
    shortDigest .software key = shortDigest .software key' ↔
      key.word32At 0 ^^^ key'.word32At 0 = 0 ∨ key.word32At 0 ^^^ key'.word32At 0 = 0xFCA42DAF := by
  rw [shortDigest_of_size_eq_four hfour, shortDigest_of_size_eq_four hfour',
    (shifts_injective 64).eq_iff, ← shift_eq_self_iff, ← UInt32.xor_eq_zero_iff]
  generalize key.word32At 0 = w, key'.word32At 0 = w', Kernel.software.fold32 0 4 = h
  have hsum : shifts 64 (h ^^^ w) ^^^ w ^^^ (shifts 64 (h ^^^ w') ^^^ w') =
      shifts 64 (w ^^^ w') ^^^ (w ^^^ w') := by
    calc shifts 64 (h ^^^ w) ^^^ w ^^^ (shifts 64 (h ^^^ w') ^^^ w')
        = shifts 64 (h ^^^ w) ^^^ shifts 64 (h ^^^ w') ^^^ (w ^^^ w') := by ac_rfl
      _ = shifts 64 (h ^^^ h ^^^ (w ^^^ w')) ^^^ (w ^^^ w') := by
        rw [← shifts_xor]
        congr 2
        ac_rfl
      _ = shifts 64 (w ^^^ w') ^^^ (w ^^^ w') := by rw [UInt32.xor_self, UInt32.zero_xor]
  rw [hsum, UInt32.xor_eq_zero_iff]
  exact shifts_mul_two_pow_eq_self_iff 1 6 _

/-- The key of the four bytes of a word. -/
def keyOf (w : UInt32) : Key := (octets32 w).toArray

theorem size_keyOf (w : UInt32) : (keyOf w).size = 4 := rfl

theorem word32At_keyOf (w : UInt32) : (keyOf w).word32At 0 = w := word32_octets32 w

theorem eq_of_word32At_eq (hfour : key.size = 4) (hfour' : key'.size = 4)
    (h : key'.word32At 0 = key.word32At 0) : key' = key := by
  have hword : key'.wordAt 4 0 = key.wordAt 4 0 := by
    rw [← Key.toUInt64_word32At (by omega), ← Key.toUInt64_word32At (by omega), h]
  apply Array.ext_getElem?
  intro i
  by_cases hi : i < 4
  · exact Key.getElem?_eq_of_wordAt_eq (by decide) (by omega) (by omega) hword (Nat.zero_le i)
      (by omega)
  · rw [Array.getElem?_eq_none (by omega), Array.getElem?_eq_none (by omega)]

theorem setOf_size_eq_four : {key : Key | key.size = 4} = Set.range keyOf := by
  ext key
  constructor
  · intro hfour
    exact ⟨key.word32At 0, eq_of_word32At_eq hfour (size_keyOf _) (word32At_keyOf _)⟩
  · rintro ⟨w, rfl⟩
    exact size_keyOf w

theorem keyOf_injective : Function.Injective keyOf := by
  intro w w' h
  rw [← word32At_keyOf w, h, word32At_keyOf]

theorem ncard_size_eq_four : {key : Key | key.size = 4}.ncard = 2 ^ 32 := by
  rw [setOf_size_eq_four, ← Set.image_univ, Set.ncard_image_of_injective _ keyOf_injective,
    Set.ncard_univ, card_word32]

theorem ncard_eq_two_mul {α β : Type} {s : Set α} (hs : s.Finite) {f : α → β}
    (h : ∀ a ∈ s, {b ∈ s | f b = f a}.ncard = 2) : s.ncard = 2 * (f '' s).ncard := by
  classical
  obtain ⟨s, rfl⟩ := hs.exists_finset_coe
  have hfiber : ∀ v ∈ s.image f, {b ∈ s | f b = v}.card = 2 := by
    intro v hv
    obtain ⟨a, ha, rfl⟩ := Finset.mem_image.1 hv
    rw [← h a ha, ← Set.ncard_coe_finset, Finset.coe_filter]
    rfl
  rw [Set.ncard_coe_finset, ← Finset.coe_image, Set.ncard_coe_finset,
    Finset.card_eq_sum_card_image f s, Finset.sum_congr rfl hfiber, Finset.sum_const, smul_eq_mul,
    mul_comm]

/-- The one other key of four bytes with the digest of `key`. -/
def partner (key : Key) : Key := keyOf (key.word32At 0 ^^^ 0xFCA42DAF)

theorem size_partner (key : Key) : (partner key).size = 4 := rfl

theorem word32At_partner (key : Key) :
    (partner key).word32At 0 = key.word32At 0 ^^^ 0xFCA42DAF := word32At_keyOf _

theorem partner_ne (key : Key) : partner key ≠ key := by
  intro h
  have hword := word32At_partner key
  rw [h] at hword
  exact absurd ((UInt32.xor_right_inj _).1 (UInt32.xor_zero.trans hword)) (by decide)

theorem setOf_shortDigest_eq (hfour : key.size = 4) :
    {key' : Key | key'.size = 4 ∧ shortDigest .software key' = shortDigest .software key} =
      {key, partner key} := by
  ext key'
  constructor
  · rintro ⟨hfour', hdigest⟩
    rcases (shortDigest_eq_iff hfour' hfour).1 hdigest with hzero | hmask
    · exact Or.inl (eq_of_word32At_eq hfour hfour' (UInt32.xor_eq_zero_iff.1 hzero))
    · apply Or.inr
      apply eq_of_word32At_eq (size_partner key) hfour'
      rw [word32At_partner, ← hmask, UInt32.xor_comm, UInt32.xor_assoc, UInt32.xor_self,
        UInt32.xor_zero]
  · rintro (rfl | rfl)
    · exact ⟨hfour, rfl⟩
    · refine ⟨size_partner key, (shortDigest_eq_iff (size_partner key) hfour).2 (Or.inr ?_)⟩
      rw [word32At_partner, UInt32.xor_comm, ← UInt32.xor_assoc, UInt32.xor_self, UInt32.zero_xor]

/-- **Keys of four bytes collide in pairs.** Two different keys of four bytes have the same digest
exactly if the sum of their words is one mask. So each digest of a key of four bytes is that of two
such keys, and half of all digests are digests of them. -/
theorem four_bytes_collide_in_pairs {kernel : Kernel} (hkernel : kernel.Documented)
    (t : OffsetTable) :
    (∀ key key' : Key, key.size = 4 → key'.size = 4 → key ≠ key' →
      (digest kernel t key = digest kernel t key' ↔
        key.word32At 0 ^^^ key'.word32At 0 = 0xFCA42DAF)) ∧
    (∀ key : Key, key.size = 4 →
      {key' : Key | key'.size = 4 ∧ digest kernel t key' = digest kernel t key}.ncard = 2) ∧
    (digest kernel t '' {key : Key | key.size = 4}).ncard = 2 ^ 31 := by
  have hdigest : ∀ key : Key, key.size = 4 → digest kernel t key = shortDigest .software key := by
    intro key hfour
    rw [digest_congr (hkernel.agree Kernel.software_documented),
      digest_of_short (by omega) (by omega)]
  have hpair : ∀ key : Key, key.size = 4 →
      {key' : Key | key'.size = 4 ∧ digest kernel t key' = digest kernel t key}.ncard = 2 := by
    intro key hfour
    have hpair : {key' : Key | key'.size = 4 ∧ digest kernel t key' = digest kernel t key} =
        {key, partner key} := by
      rw [← setOf_shortDigest_eq hfour]
      ext key'
      exact and_congr_right fun hfour' => by rw [hdigest key hfour, hdigest key' hfour']
    rw [hpair, Set.ncard_pair (partner_ne key).symm]
  refine ⟨?_, hpair, ?_⟩
  · intro key key' hfour hfour' hne
    have hword : key.word32At 0 ^^^ key'.word32At 0 ≠ 0 := fun h =>
      hne (eq_of_word32At_eq hfour' hfour (UInt32.xor_eq_zero_iff.1 h))
    rw [hdigest key hfour, hdigest key' hfour', shortDigest_eq_iff hfour hfour']
    exact or_iff_right hword
  · have hfinite : {key : Key | key.size = 4}.Finite := by
      rw [setOf_size_eq_four]
      exact Set.finite_range keyOf
    have hcount := ncard_eq_two_mul hfinite hpair
    rw [ncard_size_eq_four] at hcount
    omega

/-- The key of four zeros collides with the key of the mask, and with no other. -/
theorem four_bytes_collide_in_pairs_zeros :
    Kernel.hardware.Documented ∧ (#[0, 0, 0, 0] : Key).size = 4 ∧
    (#[0xAF, 0x2D, 0xA4, 0xFC] : Key).size = 4 ∧
    (#[0, 0, 0, 0] : Key) ≠ #[0xAF, 0x2D, 0xA4, 0xFC] ∧
    digest .hardware .zero #[0, 0, 0, 0] = digest .hardware .zero #[0xAF, 0x2D, 0xA4, 0xFC] ∧
    digest .hardware .zero #[0, 0, 0, 0] ≠ digest .hardware .zero #[0xAF, 0x2D, 0xA4, 0xFD] ∧
    {key : Key | key.size = 4 ∧
      digest .hardware .zero key = digest .hardware .zero #[0, 0, 0, 0]}.ncard = 2 := by
  obtain ⟨hcollide, hpairs, -⟩ :=
    four_bytes_collide_in_pairs Kernel.hardware_documented .zero
  refine ⟨Kernel.hardware_documented, rfl, rfl, by decide, ?_, ?_, hpairs _ rfl⟩
  · exact (hcollide _ _ rfl rfl (by decide)).2 (by decide)
  · exact mt (hcollide _ _ rfl rfl (by decide)).1 (by decide)

end KeyDigest.Banded
