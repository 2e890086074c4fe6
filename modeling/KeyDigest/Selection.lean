import KeyDigest.Hasher
import KeyDigest.Settings.Environment

/-!
# Selection

A process selects its hasher once. The banded hasher on the instruction is selected where the
machine has the instruction and the portable one was not asked for; its table is drawn from the
pinned seed, or from a seed that the process makes up. The capabilities are looked at three times
while this goes on: for the record, for the settings, and for the kernel.
-/

namespace KeyDigest

/-- A selected hasher, and what it was selected by. -/
structure Selection where
  hasher : Hasher
  settings : Settings
  capabilities : Capabilities

/-- What the three looks at the capabilities saw. -/
structure Looks where
  recorded : Capabilities
  settings : Capabilities
  kernel : Capabilities
  deriving DecidableEq

/-- Three looks that saw the same. -/
def Looks.same (c : Capabilities) : Looks := ⟨c, c, c⟩

namespace Selection

def tableOf (seed : Option UInt32) (entropy : UInt32) : TableRef :=
  ⟨.made 0, .ofSeed (seed.getD entropy)⟩

/-- The banded hasher on the instruction, or the portable one if the look for the kernel sees no
instruction. -/
def accelerated (machine : Capabilities) (table : TableRef) : Hasher :=
  match Hasher.accelerated machine table with
  | .ok h => h
  | .error _ => .portable

/-- The selection of a process with environment `e` that would make up the seed `entropy`. -/
def make (e : Environment) (entropy : UInt32) (seen : Looks) : Selection :=
  let settings := Settings.ofEnvironment e seen.settings.hasInstruction
  let hasher :=
    if settings.effective = .portable || !seen.recorded.hasInstruction then Hasher.portable
    else accelerated seen.kernel (tableOf settings.seed entropy)
  ⟨hasher, settings, seen.recorded⟩

end Selection

def Settings.describe (s : Settings) : String :=
  Text.record "StrHashConfig"
    [("requested_force", s.requested.name), ("effective_force", s.effective.name),
      ("seed", Text.optional (s.seed.map fun v => v.toNat.repr))]

end KeyDigest
