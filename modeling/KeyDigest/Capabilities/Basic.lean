/-!
# Capability words

What a machine can do, as a set of bit numbers held in a 64-bit word. Bits 0 to 31 belong to
x86-64 and bits 32 to 63 to AArch64; four of them have names.
-/

namespace KeyDigest

/-- A set of capabilities; bit `i` of the word stands for capability `i`. -/
structure Capabilities where
  word : UInt64
  deriving DecidableEq

namespace Capabilities

def none : Capabilities := ⟨0⟩

def has (a b : Capabilities) : Bool := a.word &&& b.word == b.word

def union (a b : Capabilities) : Capabilities := ⟨a.word ||| b.word⟩

instance : OrOp Capabilities where
  or := union

def difference (a b : Capabilities) : Capabilities := ⟨a.word &&& ~~~b.word⟩

def isEmpty (a : Capabilities) : Bool := a.word == 0

/-- The one capability with number `b`, taken modulo 64. -/
def bit (b : UInt8) : Capabilities := ⟨1 <<< (b % 64).toUInt64⟩

inductive Change where
  | add (c : Capabilities)
  | remove (c : Capabilities)
  deriving DecidableEq

def apply (a : Capabilities) : Change → Capabilities
  | .add c => a.union c
  | .remove c => a.difference c

/-! ## Named capabilities -/

def sse2 : Capabilities := bit 0

/-- The x86-64 extension with the CRC-32C instruction. -/
def sse42 : Capabilities := bit 1

def neon : Capabilities := bit 32

/-- The AArch64 extension with the CRC-32C instructions. -/
def crc : Capabilities := bit 33

def named : List (Capabilities × String) :=
  [(sse2, "sse2"), (sse42, "sse4.2"), (neon, "neon"), (crc, "crc")]

/-- The names of the capabilities of a set, in the order of their numbers. -/
def names (a : Capabilities) : List String := (named.filter fun n => a.has n.1).map Prod.snd

end Capabilities

/-! ## Architectures -/

inductive Architecture where
  | x86_64
  | aarch64
  | other
  deriving DecidableEq

namespace Architecture

/-- The label in one-line reports. -/
def label : Architecture → String
  | x86_64 => "x86_64"
  | aarch64 => "aarch64"
  | other => "other"

/-- The name in structured reports. -/
def name : Architecture → String
  | x86_64 => "X86_64"
  | aarch64 => "Aarch64"
  | other => "Other"

/-- The architecture that this library serves. -/
def host : Architecture := x86_64

/-- What the CRC-32C instruction needs. No probe ever finds bit 63. -/
def instructionNeeds : Architecture → Capabilities
  | x86_64 => .sse42
  | aarch64 => .crc
  | other => .bit 63

end Architecture

namespace Capabilities

/-- Whether the host can use its CRC-32C instruction. -/
def hasInstruction (a : Capabilities) : Bool := a.has Architecture.host.instructionNeeds

end Capabilities

end KeyDigest
