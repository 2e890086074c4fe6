import KeyDigest.Selection
import KeyDigest.Capabilities.Detection

/-!
# Reports

What a process tells about its selection: the hasher, the machine, and the settings before and
after they were clamped. The one-line text can also be written piece by piece, into a sink that may
not take all of it. A route says where keys of a given length are digested.
-/

namespace KeyDigest

open Text Writing

/-! ## Routes -/

/-- Where keys of one length are digested. -/
structure Route where
  kernel : String
  band : Option Band
  deriving DecidableEq

namespace Route

def text (r : Route) : String :=
  match r.band with
  | some b => r.kernel ++ "/" ++ b.label
  | none => r.kernel

def describe (r : Route) : String :=
  Text.record "Route"
    [("kernel", Text.quoted r.kernel), ("band", Text.optional (r.band.map Band.name))]

end Route

/-! ## Reports -/

/-- A selection and what it was selected by. -/
structure Report where
  hasher : Hasher
  architecture : Architecture
  capabilities : Capabilities
  requested : Preference
  effective : Preference
  seedPinned : Bool

namespace Report

def ofSelection (s : Selection) : Report where
  hasher := s.hasher
  architecture := .host
  capabilities := s.capabilities
  requested := s.settings.requested
  effective := s.settings.effective
  seedPinned := s.settings.seed.isSome

def kernel (r : Report) : String := r.hasher.name

/-- Where keys of `n` bytes are digested. -/
def route (r : Report) (n : Nat) : Route := ⟨r.kernel, r.hasher.band? n⟩

/-- Two reports agree in every part, hashers being compared by name and table. -/
instance : BEq Report where
  beq a b := a.hasher == b.hasher && a.architecture == b.architecture &&
    a.capabilities == b.capabilities && a.requested == b.requested &&
    a.effective == b.effective && a.seedPinned == b.seedPinned

/-- The one-line text. What was asked for is told only if something else is in force. -/
def text (r : Report) : String :=
  String.join
    ["strhash: ", r.kernel, " (arch ", r.architecture.label, ", caps ", r.capabilities.describe,
      ", force ", r.effective.label,
      if r.requested = r.effective then "" else ", requested " ++ r.requested.label,
      if r.seedPinned then ", seed pinned" else "", ")"]

/-- Write the one-line text. -/
def write {σ : Type} [Sink σ] (r : Report) : Writing σ Unit := do
  piece "strhash: "
  piece r.kernel
  piece " (arch "
  piece r.architecture.label
  piece ", caps "
  r.capabilities.write
  piece ", force "
  piece r.effective.label
  when (r.requested ≠ r.effective) do
    piece ", requested "
    piece r.requested.label
  when r.seedPinned (piece ", seed pinned")
  piece ")"

/-- Write the one-line text into a sink with room for `limit` bytes. -/
def writeLimited (r : Report) (limit : Nat) : Limited × Bool := r.write.into ⟨limit, []⟩

def describe (r : Report) : String :=
  Text.record "SelectionInfo"
    [("kernel", Text.quoted r.kernel), ("arch", r.architecture.name),
      ("caps", r.capabilities.describe), ("requested_force", r.requested.name),
      ("effective_force", r.effective.name), ("seed_pinned", Text.truth r.seedPinned)]

end Report

end KeyDigest
