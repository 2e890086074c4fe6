import KeyDigest.Banded
import KeyDigest.Capabilities.Basic
import KeyDigest.Text.Record

/-!
# Hashers

A hasher is a digest function together with the offset table that it samples with. There are
three: the portable one, and the banded one on either kernel. Two hashers count as equal when they
are reported under the same name and refer to the same table; that their digests then agree is a
fact about the three constructors.
-/

namespace KeyDigest

open Sampling

/-! ## Tables by reference -/

/-- Which table it is: the one that hashers without samples share, or one that was made. Two
tables may hold the same offsets and be different tables all the same. -/
inductive TableId where
  | shared
  | made (number : Nat)
  deriving DecidableEq

/-- A table that hashers refer to. -/
structure TableRef where
  id : TableId
  table : OffsetTable

/-- The table of hashers that do not sample. -/
def TableRef.shared : TableRef := ⟨.shared, .zero⟩

/-! ## Errors -/

/-- Why there is no hasher of the kind that was asked for. -/
inductive HasherError where
  /-- The machine has no CRC-32C instruction. -/
  | instructionUnavailable
  deriving DecidableEq

namespace HasherError

/-- The name in structured reports. -/
def name : HasherError → String
  | instructionUnavailable => "KernelUnavailable"

def message : HasherError → String
  | instructionUnavailable => "hardware crc32c kernel unavailable on this cpu"

end HasherError

/-! ## The three hashers -/

/-- The kernel of the instruction, on a machine that has it. -/
def Kernel.hardware? (machine : Capabilities) : Option Kernel :=
  if machine.hasInstruction then some .hardware else none

/-- A digest function with the table that it samples with. -/
structure Hasher where
  name : String
  /-- Whether keys are treated by length bands. -/
  banded : Bool
  table : TableRef
  kernel : Kernel
  /-- How a key of a given length, not zero, is digested. -/
  recipe : UInt64 → OffsetTable → Recipe UInt32

namespace Hasher

/-- The portable hasher, which neither folds nor samples. -/
def portable : Hasher where
  name := "portable/lookup3"
  banded := false
  table := .shared
  kernel := .software
  recipe n _ := Lookup3.recipe n

/-- The banded hasher on a kernel. -/
def onKernel (kernel : Kernel) (table : TableRef) : Hasher where
  name := kernel.name
  banded := true
  table := table
  kernel := kernel
  recipe := Banded.recipe

def emulated (table : TableRef) : Hasher := onKernel .software table

/-- The banded hasher on the instruction, where the machine has it. -/
def accelerated (machine : Capabilities) (table : TableRef) : Except HasherError Hasher :=
  match Kernel.hardware? machine with
  | some kernel => .ok (onKernel kernel table)
  | none => .error .instructionUnavailable

/-! ## Digests -/

def digest (h : Hasher) (key : Key) : UInt32 :=
  if key.isEmpty then emptyDigest else (h.recipe key.length64 h.table.table).run h.kernel key

/-- The digest of a key, if no step of its recipe leaves the key or the 64-bit range and every
promise holds. -/
def digest? (h : Hasher) (key : Key) : Option UInt32 :=
  if key.isEmpty then some emptyDigest
  else (h.recipe key.length64 h.table.table).run? h.kernel key

def band? (h : Hasher) (n : Nat) : Option Band := if h.banded then Band.ofLength? n else none

/-- Same name, same banding, same table. -/
instance : BEq Hasher where
  beq a b := a.name == b.name && a.banded == b.banded && a.table.id == b.table.id

/-- The hasher as a record. The place of the table in memory means nothing to a reader and is
written as a placeholder. -/
def describe (h : Hasher) : String :=
  Text.record "StrHasher"
    [("kernel", Text.quoted h.name), ("banded", Text.truth h.banded), ("table", "PTR")]

@[simp] theorem digest_empty (h : Hasher) : h.digest #[] = emptyDigest := rfl

theorem digest_portable (key : Key) : portable.digest key = Lookup3.digest key := by
  unfold digest Lookup3.digest
  split
  · next h => simp [Array.isEmpty_iff.1 h, Key.length64, Lookup3.recipe]
  · rfl

theorem digest_onKernel (kernel : Kernel) (table : TableRef) (key : Key) :
    (onKernel kernel table).digest key = Banded.digest kernel table.table key := rfl

end Hasher

end KeyDigest
