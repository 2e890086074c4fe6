import Mathlib
import KeyDigest.Proofs.Once.Panics

/-!
# What a cell is worth to one thread

Calls that one thread makes on an empty cell come to this: until an initializer returns, a get finds
nothing and each initializer that is offered is run; from then on every call gives the value that
was returned, and no initializer is run. The value is dropped with the cell and not before. The
blocking cell does so whatever the initializers do, the atomic one as long as none panics on the
empty cell.

* `state`: the blocking cell that a row of calls leaves, told by the initializers alone;
  `make_state`: one more call.
* `Build.Follows`: a build whose cells can be told by that state.
* `Build.Accounted`, `Build.Follows.accounted`: the account, and why it is right for such a build.

**Theorem (`first_value_kept`).** The account is right for both builds.
-/

namespace KeyDigest.Once

variable {α : Type}

/-! ## Initializers in a row of calls -/

def Initializer.returned? : Initializer α → Option α
  | returns v => some v
  | panics => none

/-- The value of the first initializer that returns. -/
def firstReturned? (calls : List (Call α)) : Option α :=
  (calls.filterMap Call.initializer?).findSome? Initializer.returned?

/-- The initializers up to the first one that returns, which is the last of them. -/
def upToReturn : List (Initializer α) → List (Initializer α)
  | [] => []
  | .panics :: fs => .panics :: upToReturn fs
  | .returns v :: _ => [.returns v]

/-- The initializers that have to be run. -/
def tried (calls : List (Call α)) : List (Initializer α) :=
  upToReturn (calls.filterMap Call.initializer?)

/-- What a call answers if `returned` is the value of the first initializer that returned, its own
included. -/
def Call.answer (returned : Option α) (call : Call α) : Outcome α :=
  match returned, call with
  | some v, _ => .value v
  | none, .get => .absent
  | none, .fill _ => .panicked

theorem firstReturned?_append (made rest : List (Call α)) :
    firstReturned? (made ++ rest) = (firstReturned? made).or (firstReturned? rest) := by
  rw [firstReturned?, List.filterMap_append, List.findSome?_append]
  rfl

theorem firstReturned?_get (made : List (Call α)) :
    firstReturned? (made ++ [.get]) = firstReturned? made := by
  rw [firstReturned?_append]
  exact Option.or_none

theorem firstReturned?_fill (made : List (Call α)) (f : Initializer α) :
    firstReturned? (made ++ [.fill f]) = (firstReturned? made).or f.returned? := by
  rw [firstReturned?_append]
  cases f <;> rfl

theorem upToReturn_append (fs gs : List (Initializer α)) :
    upToReturn (fs ++ gs) = upToReturn fs ++
      if (fs.findSome? Initializer.returned?).isNone then upToReturn gs else [] := by
  induction fs with
  | nil => rfl
  | cons f fs ih =>
    cases f with
    | returns v => rfl
    | panics => exact congrArg (Initializer.panics :: ·) ih

/-- Nothing is tried after an initializer has returned. -/
theorem tried_append (made rest : List (Call α)) :
    tried (made ++ rest) =
      tried made ++ if (firstReturned? made).isNone then tried rest else [] := by
  rw [tried, List.filterMap_append]
  exact upToReturn_append _ _

theorem tried_get (made : List (Call α)) : tried (made ++ [.get]) = tried made := by
  rw [tried_append]
  split <;> exact List.append_nil _

theorem tried_fill (made : List (Call α)) (f : Initializer α) :
    tried (made ++ [.fill f]) =
      tried made ++ if (firstReturned? made).isNone then [f] else [] := by
  rw [tried_append]
  cases f <;> rfl

/-! ## The blocking cell -/

/-- The blocking cell after the calls. -/
def state (made : List (Call α)) : Blocking α where
  value := firstReturned? made
  runs := (tried made).length

/-- **One more call** finds what the calls before have left, and leaves what all of them leave. -/
theorem make_state (made : List (Call α)) (c : Call α) :
    (state made).make c = (state (made ++ [c]), c.answer (firstReturned? (made ++ [c]))) := by
  cases c with
  | get =>
    rw [state, state, firstReturned?_get, tried_get]
    cases firstReturned? made <;> rfl
  | fill f =>
    rw [state, state, firstReturned?_fill, tried_fill]
    cases hfirst : firstReturned? made with
    | some v => simp [Blocking.make, Call.answer]
    | none => cases f <;> simp [Blocking.make, Call.answer, Initializer.returned?]

/-! ## Builds -/

/-- A build of the cell: what it is like, and how it is used. -/
structure Build (α : Type) where
  State : Type
  empty : State
  call : Call α → State → State × Option (Outcome α)
  runs : State → Nat
  dropped : State → Nat
  release : State → State

def Build.blocking (α : Type) : Build α where
  State := Blocking α
  empty := {}
  call := Blocking.call
  runs := (·.runs)
  dropped := (·.dropped)
  release := Blocking.release

def Build.atomic (α : Type) : Build α where
  State := Atomic.Cells α
  empty := {}
  call := Atomic.protocol.alone
  runs := (·.runs)
  dropped := (·.dropped)
  release := Atomic.Cells.release

namespace Build

variable (b : Build α) (calls : List (Call α))

/-- The outcomes of calls on an empty cell, with the numbers of initializers run. -/
def outcomes : List (Outcome α × Nat) := Once.outcomes b.call b.runs b.empty calls

/-- The cell that these calls leave. -/
def after : b.State := Once.after b.call b.empty calls

/-- The account of a row of calls on an empty cell. -/
structure Accounted : Prop where
  /-- Every call comes back. -/
  length_outcomes : (b.outcomes calls).length = calls.length
  /-- Before an initializer has returned, a get finds nothing, -/
  absent : ∀ k, calls[k]? = some .get → firstReturned? (calls.take k) = none →
    (b.outcomes calls)[k]?.map Prod.fst = some .absent
  /-- and a panic comes out. -/
  panicked : ∀ k, calls[k]? = some (.fill .panics) → firstReturned? (calls.take k) = none →
    (b.outcomes calls)[k]?.map Prod.fst = some .panicked
  /-- From the first initializer that returns on, all calls give its value. -/
  value : ∀ k c v, calls[k]? = some c → firstReturned? (calls.take (k + 1)) = some v →
    (b.outcomes calls)[k]?.map Prod.fst = some (.value v)
  /-- Up to this initializer all are run, -/
  runs : ∀ k < calls.length,
    (b.outcomes calls)[k]?.map Prod.snd = some (tried (calls.take (k + 1))).length
  /-- each in its own call, -/
  runs_step : ∀ k c, calls[k]? = some c → b.runs (b.after (calls.take (k + 1))) =
    b.runs (b.after (calls.take k)) +
      if c.initializer?.isSome ∧ (firstReturned? (calls.take k)).isNone then 1 else 0
  /-- and none afterwards. -/
  runs_constant : ∀ j k, j ≤ k → k < calls.length → firstReturned? (calls.take (j + 1)) ≠ none →
    (b.outcomes calls)[k]?.map Prod.snd = (b.outcomes calls)[j]?.map Prod.snd
  never_dropped : ∀ k, b.dropped (b.after (calls.take k)) = 0
  /-- The value is dropped with the cell, if there is one. -/
  dropped_once : b.dropped (b.release (b.after calls)) =
    if (firstReturned? calls).isSome then 1 else 0

/-! ## Builds that can be told by the blocking cell -/

/-- Through all the calls, what the build holds is told by what the blocking cell would hold. -/
structure Follows (held : Blocking α → b.State) : Prop where
  empty : b.empty = held (state [])
  call : ∀ made c rest, calls = made ++ c :: rest → b.call c (held (state made)) =
    (held (state (made ++ [c])), some (c.answer (firstReturned? (made ++ [c]))))
  runs : ∀ s, b.runs (held s) = s.runs
  dropped : ∀ s, b.dropped (held s) = s.dropped
  release : ∀ s, b.release (held s) = held s.release

variable {b calls} {held : Blocking α → b.State} {made rest : List (Call α)}

theorem Follows.after_eq (h : b.Follows calls held) (hcalls : calls = made ++ rest) :
    b.after made = held (state made) := by
  induction made using List.reverseRecOn generalizing rest with
  | nil => exact h.empty
  | append_singleton made c ih =>
    rw [List.append_assoc] at hcalls
    rw [after, Once.after, List.foldl_concat]
    refine congrArg Prod.fst (Eq.trans ?_ (h.call made c rest hcalls))
    rw [← ih hcalls, after, Once.after]

theorem Follows.outcomes_held (h : b.Follows calls held) (hcalls : calls = made ++ rest) :
    Once.outcomes b.call b.runs (held (state made)) rest = rest.mapIdx fun k c =>
      (c.answer (firstReturned? (made ++ rest.take (k + 1))),
        (tried (made ++ rest.take (k + 1))).length) := by
  induction rest generalizing made with
  | nil => rfl
  | cons c rest ih =>
    rw [Once.outcomes, h.call made c rest hcalls, List.mapIdx_cons]
    simp only [h.runs]
    rw [ih (by rw [hcalls, List.append_assoc]; rfl)]
    simp [state]

theorem Follows.length_outcomes (h : b.Follows calls held) :
    (b.outcomes calls).length = calls.length := by
  rw [outcomes, h.empty, h.outcomes_held (List.nil_append calls).symm, List.length_mapIdx]

/-- Each call answers, and as many initializers have been run, as the calls up to this one tell. -/
theorem Follows.getElem?_outcomes (h : b.Follows calls held) (k : Nat) :
    (b.outcomes calls)[k]? = calls[k]?.map fun c =>
      (c.answer (firstReturned? (calls.take (k + 1))), (tried (calls.take (k + 1))).length) := by
  rw [outcomes, h.empty, h.outcomes_held (List.nil_append calls).symm, List.getElem?_mapIdx]
  rfl

theorem Follows.runs_after (h : b.Follows calls held) (hcalls : calls = made ++ rest) :
    b.runs (b.after made) = (tried made).length := by
  rw [h.after_eq hcalls, h.runs]
  rfl

theorem Follows.dropped_after (h : b.Follows calls held) (hcalls : calls = made ++ rest) :
    b.dropped (b.after made) = 0 := by
  rw [h.after_eq hcalls, h.dropped]
  rfl

theorem Follows.dropped_release (h : b.Follows calls held) :
    b.dropped (b.release (b.after calls)) = if (firstReturned? calls).isSome then 1 else 0 := by
  rw [h.after_eq (List.append_nil calls).symm, h.release, h.dropped, Blocking.release, state]
  cases firstReturned? calls <;> rfl

theorem Follows.accounted (h : b.Follows calls held) : b.Accounted calls where
  length_outcomes := h.length_outcomes
  absent k hk hnone := by
    rw [h.getElem?_outcomes, List.take_add_one, hk, Option.toList_some, firstReturned?_get, hnone]
    rfl
  panicked k hk hnone := by
    rw [h.getElem?_outcomes, List.take_add_one, hk, Option.toList_some, firstReturned?_fill, hnone]
    rfl
  value k c v hk hsome := by
    rw [h.getElem?_outcomes, hsome, hk]
    rfl
  runs k hk := by
    rw [h.getElem?_outcomes, List.getElem?_eq_getElem hk]
    rfl
  runs_step k c hk := by
    rw [h.runs_after (List.take_append_drop _ calls).symm,
      h.runs_after (List.take_append_drop _ calls).symm, List.take_add_one, hk, Option.toList_some]
    cases c with
    | get =>
      rw [tried_get]
      rfl
    | fill f =>
      rw [tried_fill]
      cases firstReturned? (calls.take k) <;> simp [Call.initializer?]
  runs_constant j k hjk hk hfirst := by
    -- What is tried does not grow from the calls up to `j` to those up to `k`.
    obtain ⟨d, rfl⟩ := Nat.exists_eq_add_of_le hjk
    have htried : tried (calls.take (j + d + 1)) = tried (calls.take (j + 1)) := by
      rw [Nat.add_right_comm, List.take_add, tried_append,
        if_neg (by simpa using hfirst), List.append_nil]
    rw [h.getElem?_outcomes, h.getElem?_outcomes, htried, List.getElem?_eq_getElem hk,
      List.getElem?_eq_getElem (hjk.trans_lt hk)]
    rfl
  never_dropped k := h.dropped_after (List.take_append_drop k calls).symm
  dropped_once := h.dropped_release

end Build

/-! ## The two builds -/

/-- Initializers panic only after one has returned. -/
def PanicsLate (calls : List (Call α)) : Prop :=
  ∀ made rest, calls = made ++ .fill .panics :: rest → firstReturned? made ≠ none

theorem follows_blocking (calls : List (Call α)) : (Build.blocking α).Follows calls id where
  empty := rfl
  call made c _ _ := congrArg (fun r => (r.1, some r.2)) (make_state made c)
  runs _ := rfl
  dropped _ := rfl
  release _ := rfl

theorem follows_atomic {calls : List (Call α)} (h : PanicsLate calls) :
    (Build.atomic α).Follows calls Atomic.Cells.ofBlocking where
  empty := rfl
  call made c rest hcalls := by
    have hlate : (state made).value = none → c ≠ .fill .panics := by
      rintro hnone rfl
      exact h made rest hcalls hnone
    exact (Atomic.alone_ofBlocking hlate).trans
      (congrArg (fun r => (Atomic.Cells.ofBlocking r.1, some r.2)) (make_state made c))
  runs _ := rfl
  dropped _ := rfl
  release s := by
    obtain ⟨_ | v, runs, dropped⟩ := s <;> rfl

/-- **Calls that one thread makes** on an empty cell: nothing until an initializer returns, and its
value ever after. Each initializer is run up to this one and none later, and the value is dropped
once, with the cell. So it is for the blocking cell, and for the atomic one if initializers panic
only after the value is there. -/
theorem first_value_kept (calls : List (Call α)) :
    (Build.blocking α).Accounted calls ∧
      (PanicsLate calls → (Build.atomic α).Accounted calls) :=
  ⟨(follows_blocking calls).accounted, fun h => (follows_atomic h).accounted⟩

/-- A panicking initializer that comes late is not run. -/
theorem first_value_kept_late_panic :
    let calls : List (Call Nat) := [.get, .fill (.returns 7), .fill .panics]
    PanicsLate calls ∧
      ((Build.atomic Nat).outcomes calls)[0]?.map Prod.fst = some .absent ∧
      ((Build.atomic Nat).outcomes calls)[2]?.map Prod.fst = some (.value 7) ∧
      ((Build.atomic Nat).outcomes calls)[2]?.map Prod.snd = some 1 ∧
      (Build.atomic Nat).dropped ((Build.atomic Nat).release ((Build.atomic Nat).after calls)) =
        1 := by
  intro calls
  have hlate : PanicsLate calls := by
    intro made rest h
    obtain _ | ⟨_, _ | ⟨_, _ | ⟨_, made⟩⟩⟩ := made <;> simp [calls] at h
    obtain ⟨rfl, rfl, -⟩ := h
    exact Option.some_ne_none 7
  have h := (first_value_kept calls).2 hlate
  exact ⟨hlate, h.absent 0 rfl rfl, h.value 2 _ 7 rfl rfl, h.runs 2 (by decide), h.dropped_once⟩

end KeyDigest.Once
