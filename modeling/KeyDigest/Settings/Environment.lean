import KeyDigest.Settings.Preference
import KeyDigest.Settings.Seed

/-!
# Settings

The environment of a process may hold two values, a preference and a seed. They are bytes: a value
that is not UTF-8, is blank, or spells nothing is as good as no value. The settings in force also
depend on what the machine can do, since nobody gets an instruction that is not there.
-/

namespace KeyDigest

/-- The two values of the environment, as far as they are set. -/
structure Environment where
  preference : Option (Array UInt8)
  seed : Option (Array UInt8)
  deriving DecidableEq

namespace Environment

/-- The text of a value, unless it is blank. -/
def text? (value : Array UInt8) : Option (List Char) :=
  ((String.fromUTF8? ⟨value⟩).map String.toList).filter fun s => !(Text.trim s).isEmpty

/-- The preference that the environment asks for. -/
def requested (e : Environment) : Preference :=
  ((e.preference.bind text?).bind Preference.ofText?).getD .auto

/-- The seed that the environment pins. -/
def pinned (e : Environment) : Option UInt32 := (e.seed.bind text?).bind Seed.ofText?

end Environment

/-- The settings of a process. -/
structure Settings where
  requested : Preference
  effective : Preference
  seed : Option UInt32
  deriving DecidableEq

namespace Settings

/-- The settings of an environment on a machine with or without the instruction. -/
def ofEnvironment (e : Environment) (hasInstruction : Bool) : Settings where
  requested := e.requested
  effective := e.requested.clamp hasInstruction
  seed := e.pinned

end Settings

end KeyDigest
