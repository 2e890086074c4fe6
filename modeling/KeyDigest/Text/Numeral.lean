/-!
# Numerals

The number that a row of digits denotes in a base up to sixteen. The letters of hexadecimal digits
may have either case, and there is no numeral without a digit.
-/

namespace KeyDigest.Text

def digit? (base : Nat) (c : Char) : Option Nat :=
  let value :=
    if '0' ≤ c ∧ c ≤ '9' then some (c.toNat - '0'.toNat)
    else if 'a' ≤ c ∧ c ≤ 'f' then some (c.toNat - 'a'.toNat + 10)
    else if 'A' ≤ c ∧ c ≤ 'F' then some (c.toNat - 'A'.toNat + 10)
    else none
  value.filter (· < base)

/-- The number that digits denote when they follow digits that denote `n`. -/
def digitsFrom? (base : Nat) : Nat → List Char → Option Nat
  | n, [] => some n
  | n, c :: cs => (digit? base c).bind fun d => digitsFrom? base (n * base + d) cs

/-- The number that one digit or more denote. -/
def numeral? (base : Nat) : List Char → Option Nat
  | [] => none
  | cs => digitsFrom? base 0 cs

@[simp] theorem digitsFrom?_nil (base n : Nat) : digitsFrom? base n [] = some n := rfl

@[simp] theorem digitsFrom?_cons (base n : Nat) (c : Char) (cs : List Char) :
    digitsFrom? base n (c :: cs) =
      (digit? base c).bind fun d => digitsFrom? base (n * base + d) cs := rfl

end KeyDigest.Text
