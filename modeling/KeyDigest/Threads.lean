/-!
# Threads over shared cells

A protocol says how calls on some shared cells are made: each call is a row of single accesses,
and an access may end the call, lead to the next access, or have to be tried again because another
thread has to act first. Waiting apart, a call makes boundedly many accesses.

`Protocol.alone` makes a call without interruption. `Threads.run` lets any number of threads make
their calls, one access at a time in the order of a schedule; every interleaving is a schedule.
-/

namespace KeyDigest

/-- What follows an access. -/
inductive Next (α ω : Type) where
  /-- The call ends. -/
  | finish (outcome : ω)
  /-- The call goes on. -/
  | access (a : α)
  /-- Nothing changed, and the same access follows. -/
  | again

/-- Calls `κ` on shared cells `σ`, made of accesses `α` and ending in outcomes `ω`. -/
structure Protocol (σ κ α ω : Type) where
  /-- The first access of a call. -/
  first : κ → α
  perform : α → σ → σ × Next α ω
  /-- How many accesses can follow. -/
  following : α → Nat
  following_lt : ∀ {a b s t}, perform a s = (t, .access b) → following b < following a

variable {σ κ α ω : Type}

/-! ## A call without interruption -/

namespace Protocol

/-- Make an access and those that follow it in its call. There is no outcome if the call would have
to wait: nobody else will act. -/
def complete (p : Protocol σ κ α ω) (a : α) (s : σ) : σ × Option ω :=
  match _h : p.perform a s with
  | (s, .finish o) => (s, some o)
  | (s, .access b) => p.complete b s
  | (s, .again) => (s, none)
termination_by p.following a
decreasing_by exact p.following_lt _h

def alone (p : Protocol σ κ α ω) (call : κ) (s : σ) : σ × Option ω := p.complete (p.first call) s

theorem complete_of_finish {p : Protocol σ κ α ω} {a : α} {s t : σ} {o : ω}
    (h : p.perform a s = (t, .finish o)) : p.complete a s = (t, some o) := by
  rw [complete]; split <;> simp_all

theorem complete_of_access {p : Protocol σ κ α ω} {a b : α} {s t : σ}
    (h : p.perform a s = (t, .access b)) : p.complete a s = p.complete b t := by
  rw [complete]; split <;> simp_all

theorem complete_of_again {p : Protocol σ κ α ω} {a : α} {s t : σ}
    (h : p.perform a s = (t, .again)) : p.complete a s = (t, none) := by
  rw [complete]; split <;> simp_all

end Protocol

/-! ## Calls of several threads -/

/-- A thread: the access it is about to make, if it is inside a call, and the calls to come. -/
structure Thread (κ α : Type) where
  access : Option α := none
  calls : List κ

/-- An access that a thread made, and the outcome of its call if that was the last one. -/
structure Event (α ω : Type) where
  thread : Nat
  access : α
  outcome : Option ω

/-- Threads over shared cells, with the accesses made so far, latest first. -/
structure Threads (σ κ α ω : Type) where
  cells : σ
  threads : List (Thread κ α)
  events : List (Event α ω) := []

namespace Threads

/-- Threads that are about to make the given calls. -/
def start (cells : σ) (calls : List (List κ)) : Threads σ κ α ω :=
  { cells, threads := calls.map fun cs => { calls := cs } }

/-- The access that a thread makes next, and the calls that it makes after this one. -/
def nextAccess? (p : Protocol σ κ α ω) (t : Thread κ α) : Option (α × List κ) :=
  match t.access, t.calls with
  | some a, calls => some (a, calls)
  | none, call :: calls => some (p.first call, calls)
  | none, [] => none

/-- Thread `i` makes one access; nothing happens if it has none to make. -/
def step (p : Protocol σ κ α ω) (m : Threads σ κ α ω) (i : Nat) : Threads σ κ α ω :=
  match m.threads[i]?.bind (nextAccess? p) with
  | none => m
  | some (a, calls) =>
    match p.perform a m.cells with
    | (cells, .finish o) =>
      ⟨cells, m.threads.set i ⟨none, calls⟩, ⟨i, a, some o⟩ :: m.events⟩
    | (cells, .access b) =>
      ⟨cells, m.threads.set i ⟨some b, calls⟩, ⟨i, a, none⟩ :: m.events⟩
    | (cells, .again) =>
      ⟨cells, m.threads.set i ⟨some a, calls⟩, ⟨i, a, none⟩ :: m.events⟩

/-- Accesses in the order of a schedule of threads. -/
def run (p : Protocol σ κ α ω) (m : Threads σ κ α ω) (schedule : List Nat) : Threads σ κ α ω :=
  schedule.foldl (step p) m

/-- The schedule in which each of `n` threads makes one access in each of `rounds` rounds. -/
def rounds (n rounds : Nat) : List Nat := (List.replicate rounds (List.range n)).flatten

/-- The outcomes of the calls of thread `i`, earliest first. -/
def outcomes (m : Threads σ κ α ω) (i : Nat) : List ω :=
  ((m.events.filter (·.thread == i)).filterMap (·.outcome)).reverse

@[simp] theorem run_nil (p : Protocol σ κ α ω) (m : Threads σ κ α ω) : m.run p [] = m := rfl

@[simp] theorem run_cons (p : Protocol σ κ α ω) (m : Threads σ κ α ω) (i : Nat) (is : List Nat) :
    m.run p (i :: is) = (m.step p i).run p is := rfl

theorem run_append (p : Protocol σ κ α ω) (m : Threads σ κ α ω) (is js : List Nat) :
    m.run p (is ++ js) = (m.run p is).run p js := List.foldl_append

/-- What every step keeps, every run keeps. -/
theorem run_induction {p : Protocol σ κ α ω} {I : Threads σ κ α ω → Prop} {m : Threads σ κ α ω}
    (init : I m) (keep : ∀ m i, I m → I (m.step p i)) (schedule : List Nat) :
    I (m.run p schedule) := by
  induction schedule generalizing m with
  | nil => exact init
  | cons i is ih => exact ih (keep m i init)

end Threads

end KeyDigest
