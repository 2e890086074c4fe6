import KeyDigest.Words.LittleEndian
import KeyDigest.Crc.Register
import KeyDigest.Crc.Instruction

/-!
# Kernels

A kernel is a way to fold a 32-bit or a 64-bit word into the CRC-32C register. One works from the
byte table, the other is the processor's instruction.
-/

namespace KeyDigest

/-- A pair of folds with the name they are reported under. -/
structure Kernel where
  name : String
  fold32 : UInt32 → UInt32 → UInt32
  fold64 : UInt32 → UInt64 → UInt32

namespace Kernel

open LittleEndian

/-- Both folds give the same registers on all arguments. -/
structure Agree (k k' : Kernel) : Prop where
  fold32 : ∀ r w, k.fold32 r w = k'.fold32 r w
  fold64 : ∀ r w, k.fold64 r w = k'.fold64 r w

/-- Folds the bytes of the word by table, least significant first. -/
def software : Kernel where
  name := "portable/crc32c"
  fold32 r w := Crc.update r (octets32 w)
  fold64 r w := Crc.update r (octets64 w)

/-- Folds a word by the instruction. -/
def hardware : Kernel where
  name := "x86_64/sse4.2"
  fold32 r w := ⟨Crc.Instruction.fold r.toBitVec w.toBitVec⟩
  fold64 r w := ⟨Crc.Instruction.fold r.toBitVec w.toBitVec⟩

end Kernel

end KeyDigest
