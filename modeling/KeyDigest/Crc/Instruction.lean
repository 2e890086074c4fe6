/-!
# The machine instruction

Processors with a CRC-32C instruction document it as a polynomial division: the word and the
register are bit-reversed and scaled to a common power, their sum is divided by the full
polynomial over the field of two elements, and the remainder is reversed back. `fold` computes
just that, with the polynomials as natural numbers whose bit `i` is the coefficient of `x ^ i`.
-/

namespace KeyDigest.Crc.Instruction

/-- The Castagnoli polynomial with its leading term `x ^ 32`. -/
def modulus : Nat := 0x11EDC6F41

/-- The remainder of a polynomial of degree below `32 + n`, by long division from the top. -/
def remainder : Nat → Nat → Nat
  | 0, p => p
  | n + 1, p => remainder n (if p.testBit (32 + n) then p ^^^ (modulus <<< n) else p)

/-- Fold a word of `w` bits into the register. -/
def fold {w : Nat} (register : BitVec 32) (word : BitVec w) : BitVec 32 :=
  let dividend := (word.reverse.toNat <<< 32) ^^^ (register.reverse.toNat <<< w)
  (BitVec.ofNat 32 (remainder w dividend)).reverse

end KeyDigest.Crc.Instruction
