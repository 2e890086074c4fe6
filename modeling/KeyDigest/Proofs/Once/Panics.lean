import Mathlib
import KeyDigest.Once.Atomic
import KeyDigest.Once.Blocking

/-!
# Where the two cells differ

As long as no initializer panics on the empty cell, calls made one after another cannot tell the
atomic cell from the blocking one. A panic leaves the blocking cell empty, and the next initializer
is run. It leaves the atomic cell at the phase of filling, which nobody will ever end: looking for
the value finds nothing, and a call that wants to fill the cell waits for ever.

* `alone_ofBlocking`: the atomic cell does what the blocking one does.
* `outcomes_stuck_eq_iff`: after a panic they agree on calls that only look.

**Theorem (`outcomes_eq_iff`).** The cells agree on a row of calls if and only if the first of the
initializers returns or is the only one.
-/

namespace KeyDigest.Once

variable {α : Type}

/-- The initializer that a call brings. -/
def Call.initializer? : Call α → Option (Initializer α)
  | .get => none
  | .fill f => some f

namespace Blocking

theorem outcomes_cons (b : Blocking α) (c : Call α) (calls : List (Call α)) :
    outcomes Blocking.call (·.runs) b (c :: calls) =
      ((b.make c).2, (b.make c).1.runs) :: outcomes Blocking.call (·.runs) (b.make c).1 calls :=
  rfl

theorem length_outcomes (b : Blocking α) (calls : List (Call α)) :
    (outcomes Blocking.call (·.runs) b calls).length = calls.length := by
  induction calls generalizing b with
  | nil => rfl
  | cons c calls ih => exact congrArg Nat.succ (ih _)

end Blocking

namespace Atomic

open Protocol

/-! ## Calls without interruption -/

section Alone

variable {s : Cells α} {v : α} {f : Initializer α}

theorem complete_readSlot (h : s.slot = some v) :
    protocol.complete .readSlot s = (s, some (.value v)) :=
  complete_of_finish (by simp [protocol, Access.perform, h])

/-- From its value on, the thread that fills the cell is not stopped. -/
theorem complete_makeValue_returns (s : Cells α) (v : α) :
    protocol.complete (.makeValue (.returns v)) s =
      ({ s with phase := .ready, slot := some v, runs := s.runs + 1 }, some (.value v)) := by
  rw [complete_of_access rfl, complete_of_access rfl, complete_of_access rfl]
  exact complete_readSlot rfl

theorem alone_ready (hphase : s.phase = .ready) (hslot : s.slot = some v) (c : Call α) :
    protocol.alone c s = (s, some (.value v)) := by
  rw [alone]
  cases c with
  | get =>
    refine (complete_of_access (b := .readSlot) (t := s) ?_).trans (complete_readSlot hslot)
    simp [protocol, Access.perform, hphase]
  | fill f =>
    refine (complete_of_access (b := .readSlot) (t := s) ?_).trans (complete_readSlot hslot)
    simp [protocol, Access.perform, hphase]

/-- Looking for the value finds nothing while the cell is not ready. -/
theorem alone_get (h : s.phase ≠ .ready) : protocol.alone .get s = (s, some .absent) :=
  complete_of_finish (by simp [protocol, Access.perform, h])

/-- The only call on an empty cell claims it and runs its initializer. -/
theorem alone_fill_empty (h : s.phase = .empty) :
    protocol.alone (.fill f) s =
      protocol.complete (.makeValue f) { s with phase := .filling } := by
  refine (complete_of_access (b := .claim f) (t := s) ?_).trans (complete_of_access ?_)
  · simp [protocol, Access.perform, h]
  · simp [protocol, Access.perform, h]

/-- A panic leaves the phase where it is. -/
theorem alone_fill_panics (h : s.phase = .empty) :
    protocol.alone (.fill .panics) s =
      ({ s with phase := .filling, runs := s.runs + 1 }, some .panicked) := by
  rw [alone_fill_empty h]
  exact complete_of_finish rfl

/-- While the cell is being filled by nobody, a call that wants to fill it waits for ever. -/
theorem alone_fill_filling (h : s.phase = .filling) : protocol.alone (.fill f) s = (s, none) := by
  refine (complete_of_access (b := .claim f) (t := s) ?_).trans
    ((complete_of_access (b := .await) (t := s) ?_).trans (complete_of_again ?_))
  all_goals simp [protocol, Access.perform, h]

end Alone

/-! ## The blocking cell and the atomic one -/

/-- The atomic cell that holds what a blocking one holds. -/
def Cells.ofBlocking (b : Blocking α) : Cells α where
  phase := if b.value.isSome then .ready else .empty
  slot := b.value
  runs := b.runs
  dropped := b.dropped

/-- **The atomic cell does what the blocking one does**, unless an initializer panics on the empty
cell. -/
theorem alone_ofBlocking {b : Blocking α} {c : Call α}
    (h : b.value = none → c ≠ .fill .panics) :
    protocol.alone c (.ofBlocking b) = (.ofBlocking (b.make c).1, some (b.make c).2) := by
  obtain ⟨_ | v, runs, dropped⟩ := b
  · match c with
    | .get => exact alone_get (by simp [Cells.ofBlocking])
    | .fill (.returns v) =>
      rw [alone_fill_empty rfl, complete_makeValue_returns]
      rfl
    | .fill .panics => exact absurd rfl (h rfl)
  · exact alone_ready rfl rfl c

theorem outcomes_ofBlocking_cons {b : Blocking α} {c : Call α}
    (h : b.value = none → c ≠ .fill .panics) (calls : List (Call α)) :
    outcomes protocol.alone (·.runs) (.ofBlocking b) (c :: calls) =
      ((b.make c).2, (b.make c).1.runs) ::
        outcomes protocol.alone (·.runs) (.ofBlocking (b.make c).1) calls := by
  rw [outcomes, alone_ofBlocking h]
  rfl

/-- On a cell that is filled, all calls give its value. -/
theorem outcomes_eq_of_filled {b : Blocking α} (h : b.value ≠ none) (calls : List (Call α)) :
    outcomes protocol.alone (·.runs) (.ofBlocking b) calls =
      outcomes Blocking.call (·.runs) b calls := by
  induction calls with
  | nil => rfl
  | cons c calls ih =>
    have hmake : (b.make c).1 = b := by
      obtain ⟨_ | v, runs, dropped⟩ := b
      · exact absurd rfl h
      · rfl
    rw [outcomes_ofBlocking_cons fun hb => absurd hb h, Blocking.outcomes_cons, hmake, ih]

/-! ## After a panic -/

/-- A cell that was claimed by a call whose initializer panicked, and the blocking cell, agree on
the calls that only look for the value, and on no others. -/
theorem outcomes_stuck_eq_iff {s : Cells α} {b : Blocking α} (hphase : s.phase = .filling)
    (hvalue : b.value = none) (hruns : s.runs = b.runs) (calls : List (Call α)) :
    outcomes protocol.alone (·.runs) s calls = outcomes Blocking.call (·.runs) b calls ↔
      calls.filterMap Call.initializer? = [] := by
  induction calls with
  | nil => exact iff_of_true rfl rfl
  | cons c calls ih =>
    cases c with
    | get =>
      have hmake : b.make .get = (b, .absent) := by
        obtain ⟨_ | v, runs, dropped⟩ := b
        · rfl
        · cases hvalue
      rw [outcomes, alone_get (by rw [hphase]; decide), Blocking.outcomes_cons, hmake, ← hruns]
      exact (List.cons_inj_right _).trans ih
    | fill f =>
      rw [outcomes, alone_fill_filling hphase]
      refine iff_of_false (fun h => ?_) (List.cons_ne_nil f _)
      have hlength := congrArg List.length h
      rw [Blocking.length_outcomes] at hlength
      cases hlength

/-- **When the two cells agree.** Calls made one after another on the empty cells have the same
outcomes, with the same numbers of initializers run, if and only if the first initializer returns or
no other one follows. -/
theorem outcomes_eq_iff (calls : List (Call α)) :
    outcomes protocol.alone (·.runs) {} calls = outcomes Blocking.call (·.runs) {} calls ↔
      ∀ f rest, calls.filterMap Call.initializer? ≠ .panics :: f :: rest := by
  have hempty : ({} : Cells α) = .ofBlocking {} := rfl
  induction calls with
  | nil => exact iff_of_true rfl fun f rest h => by cases h
  | cons c calls ih =>
    match c with
    | .get =>
      have hmake : Blocking.make .get ({} : Blocking α) = ({}, .absent) := rfl
      rw [hempty, outcomes_ofBlocking_cons (fun _ h => by cases h), Blocking.outcomes_cons, hmake,
        List.cons_inj_right]
      exact ih
    | .fill (.returns v) =>
      have hmake : Blocking.make (.fill (.returns v)) ({} : Blocking α) =
          ({ value := some v, runs := 1 }, .value v) := rfl
      rw [hempty, outcomes_ofBlocking_cons (fun _ h => by cases h), Blocking.outcomes_cons, hmake,
        outcomes_eq_of_filled (Option.some_ne_none v)]
      exact iff_of_true rfl fun f rest h => by cases h
    | .fill .panics =>
      have hmake : Blocking.make (.fill .panics) ({} : Blocking α) = ({ runs := 1 }, .panicked) :=
        rfl
      rw [outcomes, alone_fill_panics rfl, Blocking.outcomes_cons, hmake]
      refine (List.cons_inj_right _).trans ((outcomes_stuck_eq_iff rfl rfl rfl calls).trans ?_)
      cases hrest : calls.filterMap Call.initializer? with
      | nil => exact iff_of_true rfl fun f rest h => by cases hrest.symm.trans (List.cons.inj h).2
      | cons f rest =>
        exact iff_of_false (List.cons_ne_nil f rest) fun h =>
          h f rest (congrArg (Initializer.panics :: ·) hrest)

/-- After a panic on the empty cells, the blocking one is filled by the next initializer; on the
atomic one the next call never comes back. -/
theorem outcomes_differ_after_panic :
    outcomes protocol.alone (·.runs) ({} : Cells Nat) [.fill .panics, .fill (.returns 7)] =
      [(.panicked, 1)] ∧
    outcomes Blocking.call (·.runs) ({} : Blocking Nat) [.fill .panics, .fill (.returns 7)] =
      [(.panicked, 1), (.value 7, 2)] ∧
    (protocol.alone (.fill .panics) ({} : Cells Nat)).1.phase = .filling := by
  refine ⟨?_, by decide, ?_⟩
  · rw [outcomes, alone_fill_panics rfl]
    simp only [outcomes, alone_fill_filling]
  · rw [alone_fill_panics rfl]

end Atomic

end KeyDigest.Once
