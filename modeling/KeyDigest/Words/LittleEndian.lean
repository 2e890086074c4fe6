/-!
# Words and their bytes

A word and the list of its bytes, least significant byte first. `word32_octets32` and
`word64_octets64` say that no word is lost by taking it apart.
-/

namespace KeyDigest.LittleEndian

/-- The word whose bytes are `bytes`, least significant first. -/
def word32 (bytes : List UInt8) : UInt32 :=
  bytes.foldr (fun b w => b.toUInt32 ||| (w <<< 8)) 0

/-- The word whose bytes are `bytes`, least significant first. -/
def word64 (bytes : List UInt8) : UInt64 :=
  bytes.foldr (fun b w => b.toUInt64 ||| (w <<< 8)) 0

/-- The four bytes of a word, least significant first. -/
def octets32 (w : UInt32) : List UInt8 :=
  [w.toUInt8, (w >>> 8).toUInt8, (w >>> 16).toUInt8, (w >>> 24).toUInt8]

/-- The eight bytes of a word, least significant first. -/
def octets64 (w : UInt64) : List UInt8 :=
  [w.toUInt8, (w >>> 8).toUInt8, (w >>> 16).toUInt8, (w >>> 24).toUInt8,
    (w >>> 32).toUInt8, (w >>> 40).toUInt8, (w >>> 48).toUInt8, (w >>> 56).toUInt8]

@[simp] theorem word32_nil : word32 [] = 0 := rfl

@[simp] theorem word32_cons (b : UInt8) (bytes : List UInt8) :
    word32 (b :: bytes) = b.toUInt32 ||| (word32 bytes <<< 8) := rfl

@[simp] theorem word64_nil : word64 [] = 0 := rfl

@[simp] theorem word64_cons (b : UInt8) (bytes : List UInt8) :
    word64 (b :: bytes) = b.toUInt64 ||| (word64 bytes <<< 8) := rfl

theorem word32_octets32 (w : UInt32) : word32 (octets32 w) = w := by
  apply UInt32.toBitVec_inj.1
  ext i hi
  simp [octets32, BitVec.getElem_shiftLeft, -UInt32.toUInt32_toUInt8]
  grind

theorem word64_octets64 (w : UInt64) : word64 (octets64 w) = w := by
  apply UInt64.toBitVec_inj.1
  ext i hi
  simp [octets64, BitVec.getElem_shiftLeft, -UInt64.toUInt64_toUInt8]
  grind

@[simp] theorem length_octets32 (w : UInt32) : (octets32 w).length = 4 := rfl

@[simp] theorem length_octets64 (w : UInt64) : (octets64 w).length = 8 := rfl

end KeyDigest.LittleEndian
