import KeyDigest.Words.LittleEndian

/-!
# Keys

A key is a byte string. Its bytes and its little-endian words are read at positions counted from
zero; a read whose window is not wholly inside the key gives nothing.
-/

namespace KeyDigest

/-- A byte string to be digested. -/
abbrev Key := Array UInt8

/-- The digest of the empty key, however other keys are digested. -/
def emptyDigest : UInt32 := 0

namespace Key

def length64 (key : Key) : UInt64 := key.size.toUInt64

/-- The `width` bytes from `pos` on. -/
def window? (key : Key) (pos width : Nat) : Option (List UInt8) :=
  if pos + width ≤ key.size then some (key.extract pos (pos + width)).toList else none

def octet? (key : Key) (pos : Nat) : Option UInt8 := key[pos]?

/-- The word in the four bytes from `pos` on. -/
def word32? (key : Key) (pos : Nat) : Option UInt32 :=
  (key.window? pos 4).map LittleEndian.word32

/-- The word in the eight bytes from `pos` on. -/
def word64? (key : Key) (pos : Nat) : Option UInt64 :=
  (key.window? pos 8).map LittleEndian.word64

theorem toNat_length64 {key : Key} (h : key.size < UInt64.size) : key.length64.toNat = key.size :=
  UInt64.toNat_ofNat_of_lt' h

theorem isSome_window? (key : Key) (pos width : Nat) :
    (key.window? pos width).isSome ↔ pos + width ≤ key.size := by
  unfold window?; split <;> simp_all

theorem isSome_octet? (key : Key) (pos : Nat) : (key.octet? pos).isSome ↔ pos < key.size := by
  simp [octet?]

theorem isSome_word32? (key : Key) (pos : Nat) :
    (key.word32? pos).isSome ↔ pos + 4 ≤ key.size := by
  simp [word32?, isSome_window?]

theorem isSome_word64? (key : Key) (pos : Nat) :
    (key.word64? pos).isSome ↔ pos + 8 ≤ key.size := by
  simp [word64?, isSome_window?]

end Key

end KeyDigest
