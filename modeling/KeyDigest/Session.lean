import KeyDigest.Report
import KeyDigest.Once.Blocking

/-!
# A session

A session is the use that one process makes of this library. It has an environment, an override,
and a context that a hasher can be installed in. The first request that needs a hasher makes the
selection; it is kept in a write-once cell, and what happens to the override later does not change
it. The settings alone are worked out anew whenever they are asked for.
-/

namespace KeyDigest

open Sampling

/-- Looks at the capabilities while other threads make calls on the override: `first` before the
second look, `second` before the third. -/
def Looks.amid (detected : Capabilities) (s : Override.Cells) (first second : List Override.Call) :
    Looks :=
  let s₁ := first.foldl (fun s call => call.make s) s
  let s₂ := second.foldl (fun s call => call.make s) s₁
  let look (s : Override.Cells) := (Detection.current detected s).capabilities
  ⟨look s, look s₁, look s₂⟩

/-- Where a hasher is installed. -/
structure Context where
  installed : Option Hasher := none
  /-- How many times the context was written. -/
  installs : Nat := 0

structure Session where
  environment : Environment
  /-- The seed that the session would make up. -/
  entropy : UInt32
  detected : Capabilities
  override : Override.Cells := {}
  selection : Once.Blocking Selection := {}
  context : Context := {}

inductive Request where
  | settings
  | selected
  | install
  | installed
  | digest (key : Key)
  | band (n : Nat)
  | route (n : Nat)
  | report
  | table
  | override (call : Override.Call)

inductive Reply where
  | settings (s : Settings)
  | selected (h : Hasher)
  /-- The hasher that was installed, how many times the context was written, and what it holds. -/
  | install (h : Hasher) (context : Context)
  | installed (h : Option Hasher)
  | digest (d : UInt32)
  | band (b : Option Band)
  | route (r : Route)
  | report (r : Report)
  | table (t : OffsetTable)
  /-- The detection, if it is due to an override. -/
  | override (d : Option Detection)

namespace Session

/-- What the session takes the machine to be. -/
def detection (p : Session) : Detection := Detection.current p.detected p.override

def settings (p : Session) : Settings :=
  .ofEnvironment p.environment p.detection.capabilities.hasInstruction

/-- The selection that the session would make at this moment, while other threads make the calls
`first` and `second` on the override. -/
def selectAmid (p : Session) (first second : List Override.Call) : Selection :=
  .make p.environment p.entropy (.amid p.detected p.override first second)

/-- The selection, made now if it has not been made yet. -/
def select (p : Session) : Session × Selection :=
  let (cell, s) := p.selection.fill fun _ => p.selectAmid [] []
  ({ p with selection := cell }, s)

def step (p : Session) : Request → Session × Reply
  | .settings => (p, .settings p.settings)
  | .selected =>
    let (p, s) := p.select
    (p, .selected s.hasher)
  | .install =>
    let (p, s) := p.select
    let context : Context := ⟨some s.hasher, p.context.installs + 1⟩
    ({ p with context }, .install s.hasher context)
  | .installed => (p, .installed p.context.installed)
  | .digest key =>
    let (p, s) := p.select
    (p, .digest (s.hasher.digest key))
  | .band n =>
    let (p, s) := p.select
    (p, .band (s.hasher.band? n))
  | .route n =>
    let (p, s) := p.select
    (p, .route ((Report.ofSelection s).route n))
  | .report =>
    let (p, s) := p.select
    (p, .report (.ofSelection s))
  | .table =>
    let (p, s) := p.select
    (p, .table s.hasher.table.table)
  | .override call =>
    let p := { p with override := call.make p.override }
    (p, .override (p.override.current.map fun _ => p.detection))

def run (p : Session) : List Request → Session × List Reply
  | [] => (p, [])
  | r :: rs =>
    let (p, reply) := p.step r
    let (p, replies) := p.run rs
    (p, reply :: replies)

/-- A session that has made no selection, with an override. -/
def start (environment : Environment) (entropy : UInt32) (detected override : Capabilities) :
    Session where
  environment := environment
  entropy := entropy
  detected := detected
  override := (Override.Call.set override).make {}

end Session

end KeyDigest
