import Mathlib
import KeyDigest.Words.HighestBit

/-!
# The integer logarithm of a word

The table made by halving and the scan for leading zeros compute one function.

* `entry_toNat`: the entry that the table has, or would have, for a word is what the scan finds.
* `floorLog2_eq`: it is the integer logarithm of every word but zero.
* `floorLog2_eq_none_iff`, `floorLog2_eq_some_iff`: the logarithm by the powers of two around it.
-/

namespace KeyDigest.HighestBit

theorem halvings_half {n : Nat} (h : 0 < n) : halvings (n / 2) = n.log2 := by
  induction n using Nat.strongRecOn with
  | ind n ih =>
    rw [Nat.log2_def]
    split
    · next htwo => rw [halvings_of_pos (by omega), ih (n / 2) (by omega) (by omega)]
    · next hone =>
      have hzero : n / 2 = 0 := by omega
      rw [hzero, halvings_zero]

theorem entry_eq {n : Nat} (h : 0 < n) : entry n = some (.ofNat n.log2) := by
  rw [entry, if_neg (by omega), halvings_half h]

/-- Above the highest bit are the leading zeros. -/
theorem toNat_scan {n : UInt32} (h : n ≠ 0) : (scan n).toNat = n.toNat.log2 := by
  have hvec : n.toBitVec ≠ 0#32 := fun hzero => h (UInt32.toBitVec_inj.1 hzero)
  have hnat : n.toNat ≠ 0 := fun hzero => h (UInt32.toNat_inj.1 hzero)
  have hzeros : n.toBitVec.clz.toNat < 32 := BitVec.clz_lt_iff_ne_zero.2 hvec
  have hscan : (scan n).toNat = 31 - n.toBitVec.clz.toNat := by
    have hle : (⟨n.toBitVec.clz⟩ : UInt32) ≤ 31 := by
      show n.toBitVec.clz.toNat ≤ 31
      omega
    rw [scan, UInt32.toNat_sub_of_le _ _ hle]
    rfl
  rw [hscan, eq_comm, Nat.log2_eq_iff hnat]
  constructor
  · exact BitVec.two_pow_sub_clz_le_toNat_of_ne_zero (by decide) hvec
  · have hsub : 31 - n.toBitVec.clz.toNat + 1 = 32 - n.toBitVec.clz.toNat := by omega
    rw [hsub]
    exact BitVec.toNat_lt_two_pow_sub_clz

section

variable {n k : UInt32}

/-- Halving and scanning find the same bit. -/
theorem entry_toNat (h : n ≠ 0) : entry n.toNat = some (scan n) := by
  have hpos : 0 < n.toNat := Nat.pos_of_ne_zero fun hzero => h (UInt32.toNat_inj.1 hzero)
  rw [entry_eq hpos, ← toNat_scan h, UInt32.ofNat_toNat]

theorem getElem_table (h : n ≠ 0) (hlow : n.toNat < tableSize) :
    table[n.toNat] = some (scan n) := by
  rw [table, Vector.getElem_ofFn]
  exact entry_toNat h

theorem floorLog2_eq_scan (h : n ≠ 0) : floorLog2 n = some (scan n) := by
  rw [floorLog2]
  split
  · next hlow => exact getElem_table h hlow
  · rfl

/-- **The table and the scan agree** on what they compute, the integer logarithm. -/
theorem floorLog2_eq (h : n ≠ 0) : floorLog2 n = some (.ofNat n.toNat.log2) := by
  rw [floorLog2_eq_scan h, ← toNat_scan h, UInt32.ofNat_toNat]

theorem floorLog2_zero : floorLog2 0 = none := by
  rw [floorLog2, dif_pos (by decide), table, Vector.getElem_ofFn]
  rfl

theorem floorLog2_eq_none_iff : floorLog2 n = none ↔ n = 0 := by
  constructor
  · intro hnone
    by_contra h
    rw [floorLog2_eq h] at hnone
    cases hnone
  · rintro rfl
    exact floorLog2_zero

theorem floorLog2_eq_some_iff :
    floorLog2 n = some k ↔ 2 ^ k.toNat ≤ n.toNat ∧ n.toNat < 2 ^ (k.toNat + 1) := by
  by_cases h : n = 0
  · subst h
    have hpow : ¬ 2 ^ k.toNat ≤ (0 : UInt32).toNat := (Nat.two_pow_pos _).not_ge
    rw [floorLog2_zero]
    exact iff_of_false nofun fun hbounds => hpow hbounds.1
  · have hne : n.toNat ≠ 0 := fun hzero => h (UInt32.toNat_inj.1 hzero)
    have hlog : n.toNat.log2 < UInt32.size :=
      ((Nat.log2_lt hne).2 n.toNat_lt).trans (by decide : 32 < UInt32.size)
    rw [floorLog2_eq h, Option.some_inj, ← UInt32.toNat_inj, UInt32.toNat_ofNat_of_lt' hlog,
      Nat.log2_eq_iff hne]

end

end KeyDigest.HighestBit
