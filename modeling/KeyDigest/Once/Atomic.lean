import KeyDigest.Threads
import KeyDigest.Once.Call

/-!
# The atomic cell

A cell for systems that cannot sleep is a slot with a phase beside it. The caller that moves the
phase from empty to filling runs its initializer, writes the slot and moves the phase to ready;
the others look at the phase until it is ready, and then read the slot. A panic leaves the phase
where it is.
-/

namespace KeyDigest.Once.Atomic

/-- What the slot can be used for. -/
inductive Phase where
  | empty
  | filling
  | ready
  deriving DecidableEq

/-- The shared cells, with the number of initializers run and of values dropped so far. -/
structure Cells (α : Type) where
  phase : Phase := .empty
  slot : Option α := none
  runs : Nat := 0
  dropped : Nat := 0

/-- One access to a shared cell, or a run of the initializer. -/
inductive Access (α : Type) where
  /-- Look at the phase, to read the slot if it is ready. -/
  | peek
  /-- Look at the phase, to fill the slot if it is not ready. -/
  | inspect (f : Initializer α)
  /-- Move the phase from empty to filling. -/
  | claim (f : Initializer α)
  | makeValue (f : Initializer α)
  | writeSlot (v : α)
  /-- Move the phase to ready. -/
  | publish
  /-- Look at the phase until it is ready. -/
  | await
  | readSlot

variable {α : Type}

def Access.perform : Access α → Cells α → Cells α × Next (Access α) (Outcome α)
  | peek, s => (s, if s.phase = .ready then .access readSlot else .finish .absent)
  | inspect f, s => (s, .access (if s.phase = .ready then readSlot else claim f))
  | claim f, s =>
    if s.phase = .empty then ({ s with phase := .filling }, .access (makeValue f))
    else (s, .access await)
  | makeValue (.returns v), s => ({ s with runs := s.runs + 1 }, .access (writeSlot v))
  | makeValue .panics, s => ({ s with runs := s.runs + 1 }, .finish .panicked)
  | writeSlot v, s => ({ s with slot := some v }, .access publish)
  | publish, s => ({ s with phase := .ready }, .access readSlot)
  | await, s => (s, if s.phase = .ready then .access readSlot else .again)
  | readSlot, s =>
    (s, .finish (match s.slot with
      | some v => .value v
      | none => .unwritten))

def protocol : Protocol (Cells α) (Call α) (Access α) (Outcome α) where
  first
    | .get => .peek
    | .fill f => .inspect f
  perform := Access.perform
  following
    | .peek => 1
    | .inspect _ => 5
    | .claim _ => 4
    | .makeValue _ => 3
    | .writeSlot _ => 2
    | .publish => 1
    | .await => 1
    | .readSlot => 0
  following_lt := by
    intro a b s t h
    cases a with
    | makeValue f => cases f <;> grind [Access.perform]
    | _ => grind [Access.perform]

/-- `n` threads make the same call at once, taking turns. -/
def race (c : Call α) (n : Nat) (s : Cells α) : Cells α × List (Outcome α) :=
  let m := (Threads.start s (List.replicate n [c])).run protocol (Threads.rounds n 8)
  (m.cells, (List.range n).flatMap m.outcomes)

def Cells.release (s : Cells α) : Cells α :=
  if s.phase = .ready then { s with phase := .empty, slot := none, dropped := s.dropped + 1 } else s

end KeyDigest.Once.Atomic
