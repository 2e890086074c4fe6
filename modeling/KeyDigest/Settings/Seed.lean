import KeyDigest.Text.Blank
import KeyDigest.Text.Numeral

/-!
# The pinned seed

A seed is written as a 32-bit number, in decimal or, after `0x`, in hexadecimal. One plus sign may
stand before the digits; blanks may stand around the whole.
-/

namespace KeyDigest.Seed

/-- The base, and what follows the mark of the base. -/
def splitBase : List Char → Nat × List Char
  | '0' :: 'x' :: s => (16, s)
  | '0' :: 'X' :: s => (16, s)
  | s => (10, s)

/-- The text without its plus sign. -/
def dropPlus : List Char → List Char
  | '+' :: s => s
  | s => s

/-- The seed that a text writes. -/
def ofText? (s : List Char) : Option UInt32 :=
  let (base, s) := splitBase (Text.trim s)
  ((Text.numeral? base (dropPlus s)).filter (· < UInt32.size)).map Nat.toUInt32

end KeyDigest.Seed
