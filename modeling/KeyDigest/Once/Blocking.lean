import KeyDigest.Once.Call

/-!
# The blocking cell

In a blocking cell, one initializer runs at a time and the other callers sleep until it is over.
If it panics, the cell is as empty as before and the next caller runs its own.
-/

namespace KeyDigest.Once

/-- A blocking cell, with the number of initializers run and of values dropped so far. -/
structure Blocking (α : Type) where
  value : Option α := none
  runs : Nat := 0
  dropped : Nat := 0

namespace Blocking

variable {α : Type}

def make (call : Call α) (s : Blocking α) : Blocking α × Outcome α :=
  match s.value, call with
  | some v, _ => (s, .value v)
  | none, .get => (s, .absent)
  | none, .fill (.returns v) => ({ s with value := some v, runs := s.runs + 1 }, .value v)
  | none, .fill .panics => ({ s with runs := s.runs + 1 }, .panicked)

/-- The value, made now if there is none yet: a call whose initializer returns. -/
def fill (v : Unit → α) (s : Blocking α) : Blocking α × α :=
  match s.value with
  | some w => (s, w)
  | none => ({ s with value := some (v ()), runs := s.runs + 1 }, v ())

theorem snd_fill (v : Unit → α) (s : Blocking α) : (s.fill v).2 = s.value.getD (v ()) := by
  obtain ⟨_ | w, n, d⟩ := s <;> rfl

theorem value_fill (v : Unit → α) (s : Blocking α) : (s.fill v).1.value = some (s.fill v).2 := by
  obtain ⟨_ | w, n, d⟩ := s <;> rfl

theorem make_fill_returns (v : α) (s : Blocking α) :
    make (.fill (.returns v)) s = ((fill (fun _ => v) s).1, .value (fill (fun _ => v) s).2) := by
  obtain ⟨_ | w, n, d⟩ := s <;> rfl

/-- Every call comes back. -/
def call (c : Call α) (s : Blocking α) : Blocking α × Option (Outcome α) :=
  ((make c s).1, some (make c s).2)

/-- `n` threads make the same call. They enter one after another, in some order. -/
def race (c : Call α) : Nat → Blocking α → Blocking α × List (Outcome α)
  | 0, s => (s, [])
  | n + 1, s =>
    let (s, o) := make c s
    let (s, os) := race c n s
    (s, o :: os)

def release (s : Blocking α) : Blocking α :=
  match s.value with
  | some _ => { s with value := none, dropped := s.dropped + 1 }
  | none => s

end Blocking

end KeyDigest.Once
