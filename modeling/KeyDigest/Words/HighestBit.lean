/-!
# Integer logarithm

`floorLog2 n` is the position of the highest set bit of a 32-bit word. Words below 128 are looked
up in a table made by halving; larger ones are scanned for their leading zeros. Zero has no
logarithm.
-/

namespace KeyDigest.HighestBit

/-- How many halvings take `n` to zero. -/
def halvings (n : Nat) : Nat :=
  if n = 0 then 0 else halvings (n / 2) + 1
termination_by n

/-- The table's entry for `n`. -/
def entry (n : Nat) : Option UInt32 :=
  if n = 0 then none else some (halvings (n / 2)).toUInt32

/-- Number of words that the table covers. -/
def tableSize : Nat := 128

/-- The entries for `0`, `1`, … `127`. -/
def table : Vector (Option UInt32) tableSize := Vector.ofFn fun i => entry i

/-- The position of the highest set bit, found from the number of zeros above it. -/
def scan (n : UInt32) : UInt32 := 31 - ⟨n.toBitVec.clz⟩

/-- `⌊log₂ n⌋`, or `none` for zero. -/
def floorLog2 (n : UInt32) : Option UInt32 :=
  if h : n.toNat < tableSize then table[n.toNat] else some (scan n)

@[simp] theorem halvings_zero : halvings 0 = 0 := by
  unfold halvings; simp

theorem halvings_of_pos {n : Nat} (h : 0 < n) : halvings n = halvings (n / 2) + 1 := by
  rw [halvings]; simp [Nat.pos_iff_ne_zero.1 h]

end KeyDigest.HighestBit
