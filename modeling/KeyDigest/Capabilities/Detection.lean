import KeyDigest.Capabilities.Override
import KeyDigest.Text.Record
import KeyDigest.Text.Writing

/-!
# Detection

The capabilities that a process goes by: those of the override while one is set, and those that
were detected otherwise.
-/

namespace KeyDigest

def Capabilities.describe (a : Capabilities) : String :=
  Text.listed (a.names.map Text.quoted)

/-- Write the same list of names. -/
def Capabilities.write {σ : Type} [Text.Sink σ] (a : Capabilities) : Text.Writing σ Unit :=
  Text.Writing.listed (a.names.map Text.Writing.quoted)

/-- Capabilities and the architecture that they belong to. -/
structure Detection where
  capabilities : Capabilities
  architecture : Architecture
  deriving DecidableEq

namespace Detection

/-- No capability of no known architecture. -/
def portable : Detection := ⟨.none, .other⟩

/-- What counts when `detected` was found and the override is in the state `s`. -/
def current (detected : Capabilities) (s : Override.Cells) : Detection :=
  ⟨s.current.getD detected, .host⟩

def describe (d : Detection) : String :=
  Text.record "Detected" [("caps", d.capabilities.describe), ("arch", d.architecture.name)]

end Detection

end KeyDigest
