/-!
# The CRC-32C register

The register is a 32-bit word in reflected order: bit 31 stands for the constant coefficient.
Shifting it by one place multiplies by `x` modulo the Castagnoli polynomial. A byte is folded in
by eight shifts at once, whose effect on the low byte is looked up in a table. There is no
inversion before or after.
-/

namespace KeyDigest.Crc

/-- The Castagnoli polynomial without its leading term, in reflected order. -/
def polynomial : UInt32 := 0x82F63B78

/-- One place: the low bit leaves, and the polynomial is subtracted if it was set. -/
def shift (r : UInt32) : UInt32 := (r >>> 1) ^^^ (polynomial &&& (0 - (r &&& 1)))

def shifts : Nat → UInt32 → UInt32
  | 0, r => r
  | n + 1, r => shifts n (shift r)

def table : Vector UInt32 256 := Vector.ofFn fun i => shifts 8 i.val.toUInt32

def step (r : UInt32) (b : UInt8) : UInt32 :=
  let i := r.toUInt8 ^^^ b
  have : i.toNat < 256 := i.toNat_lt
  (r >>> 8) ^^^ table[i.toNat]

def update (r : UInt32) (bytes : List UInt8) : UInt32 := bytes.foldl step r

@[simp] theorem update_nil (r : UInt32) : update r [] = r := rfl

@[simp] theorem update_cons (r : UInt32) (b : UInt8) (bytes : List UInt8) :
    update r (b :: bytes) = update (step r b) bytes := rfl

theorem update_append (r : UInt32) (a b : List UInt8) :
    update r (a ++ b) = update (update r a) b := List.foldl_append

/-- The table holds eight shifts of each byte. -/
theorem step_eq (r : UInt32) (b : UInt8) :
    step r b = (r >>> 8) ^^^ shifts 8 (r.toUInt8 ^^^ b).toUInt32 := by
  simp only [step, table, Vector.getElem_ofFn]
  have low : r.toNat % 256 % 4294967296 = r.toNat % 256 := by omega
  congr 2
  exact UInt32.toNat_inj.1 (by simp [low])

end KeyDigest.Crc
