import KeyDigest.Key
import KeyDigest.Capabilities.Basic

/-!
# Probes

What a machine reports about itself, turned into capabilities. On x86-64 it is a register of the
identification instruction, on AArch64 a word of the vector that the system hands to every
process. The baseline of an architecture needs no probe.
-/

namespace KeyDigest.Probe

def baselineX86 : Capabilities := .sse2

def baselineArm : Capabilities := .neon

/-- Bit 20 of the feature register says that the CRC-32C instruction is there. -/
def ofFeatureRegister (ecx : UInt32) : Capabilities :=
  if ecx.toBitVec.getLsbD 20 then .sse42 else .none

/-- Bit 7 of the hardware word says that the CRC-32C instructions are there. -/
def ofHardwareWord (word : UInt64) : Capabilities :=
  if word.toBitVec.getLsbD 7 then .crc else .none

/-! ## The auxiliary vector -/

def hardwareTag : UInt64 := 16

/-- The tag that ends the vector. -/
def endTag : UInt64 := 0

/-- The hardware word in a vector of pairs of tag and value, sought from pair `i` on. -/
def hardwareWordFrom (vector : Key) (i : Nat) : Option UInt64 :=
  match vector.word64? (16 * i), h : vector.word64? (16 * i + 8) with
  | some tag, some value =>
    if tag = hardwareTag then some value
    else if tag = endTag then none
    else hardwareWordFrom vector (i + 1)
  | _, _ => none
termination_by vector.size - i
decreasing_by
  have := (Key.isSome_word64? vector (16 * i + 8)).1 (by simp [h])
  omega

/-- What the vector says; nothing, if it holds no hardware word. -/
def ofVector (vector : Key) : Capabilities :=
  match hardwareWordFrom vector 0 with
  | some word => ofHardwareWord word
  | none => .none

end KeyDigest.Probe
