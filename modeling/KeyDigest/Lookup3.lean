import KeyDigest.Words.Mixing
import KeyDigest.Recipe

/-!
# The portable digest

Keys of four bytes and more are digested from four words: the first, the last, the one that ends
at the middle and the one that begins before the quarter. Shorter keys are digested from their
first, middle and last byte. The length takes part in both, and the empty key has digest zero.
-/

namespace KeyDigest.Lookup3

open Recipe

/-- The digest of a key of one to three bytes. -/
def tiny (n : UInt64) : Recipe UInt32 := do
  let a ← octet 0
  let last ← octet (← compute .subFloor n 1)
  let h := n.toUInt32 ^^^ last.toUInt32
  let b ← octet (n >>> 1)
  let h := Mixing.round h b.toUInt32 14
  return Mixing.finish a.toUInt32 b.toUInt32 h

/-- The digest of a key of at least four bytes. -/
def words (n : UInt64) : Recipe UInt32 := do
  let a ← word32 0
  let last ← word32 (← compute .sub n 4)
  let h := n.toUInt32 ^^^ last
  let b ← word32 (← compute .sub (n >>> 1) 2)
  let h := Mixing.round h b 14
  let quarter ← word32 (← compute .sub (n >>> 2) 1)
  return Mixing.finish a (b + quarter) h

/-- The digest of a key of `n` bytes. -/
def recipe (n : UInt64) : Recipe UInt32 :=
  if 4 ≤ n then words n else if 0 < n then tiny n else pure emptyDigest

/-- The digest of a key. It folds nothing, so it is the same on every kernel. -/
def digest (key : Key) : UInt32 := (recipe key.length64).run .software key

/-- The digest of a key, if no step of its recipe leaves the key or the 64-bit range. -/
def digest? (key : Key) : Option UInt32 := (recipe key.length64).run? .software key

end KeyDigest.Lookup3
