/-!
# Calls on a write-once cell

A write-once cell holds nothing until the first call that fills it, and the same value from then
on. Whoever wants the value brings an initializer, which is run if the cell is still empty; it may
panic instead of returning.
-/

namespace KeyDigest.Once

inductive Initializer (α : Type) where
  | returns (v : α)
  | panics
  deriving DecidableEq

inductive Call (α : Type) where
  | get
  /-- Look for the value, and make it if there is none. -/
  | fill (f : Initializer α)
  deriving DecidableEq

inductive Outcome (α : Type) where
  | absent
  | value (v : α)
  /-- The initializer's panic came out. -/
  | panicked
  /-- The slot was read before anything was written to it. -/
  | unwritten
  deriving DecidableEq

/-- The outcomes of calls made one after another, each with the number of initializers run so far.
A call that does not come back is the last one. -/
def outcomes {σ α : Type} (make : Call α → σ → σ × Option (Outcome α)) (runs : σ → Nat) :
    σ → List (Call α) → List (Outcome α × Nat)
  | _, [] => []
  | s, call :: calls =>
    match make call s with
    | (s, some o) => (o, runs s) :: outcomes make runs s calls
    | (_, none) => []

/-- The state that calls made one after another lead to. -/
def after {σ α : Type} (make : Call α → σ → σ × Option (Outcome α)) (s : σ)
    (calls : List (Call α)) : σ :=
  calls.foldl (fun s call => (make call s).1) s

end KeyDigest.Once
