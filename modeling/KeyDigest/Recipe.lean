import KeyDigest.Key
import KeyDigest.Crc.Kernel

/-!
# Recipes

A digest is made by a recipe: a straight program that computes positions in 64-bit arithmetic,
reads bytes and words of the key at them, and folds words into the register. A recipe sees the key
only through the answers to its steps.

`run` answers every step: arithmetic wraps, a read outside the key is zero, and a promise that does
not hold goes unnoticed. `run?` answers a step only if its arithmetic is exact, its window is
inside the key and its promise holds. `trace` lists the steps of a run. `run_eq_of_run?` says that
the two runs agree wherever the second one comes to an end.
-/

namespace KeyDigest

/-! ## Arithmetic on positions -/

inductive Arithmetic where
  | add
  | sub
  | mul
  /-- Subtraction that stops at zero. -/
  | subFloor
  | min
  deriving DecidableEq

namespace Arithmetic

/-- The result modulo `2 ^ 64`. -/
def eval : Arithmetic → UInt64 → UInt64 → UInt64
  | add, a, b => a + b
  | sub, a, b => a - b
  | mul, a, b => a * b
  | subFloor, a, b => if b ≤ a then a - b else 0
  | min, a, b => if a ≤ b then a else b

/-- Neither above `2 ^ 64 - 1` nor below zero. -/
def exact : Arithmetic → UInt64 → UInt64 → Bool
  | add, a, b => a.toNat + b.toNat < UInt64.size
  | sub, a, b => b ≤ a
  | mul, a, b => a.toNat * b.toNat < UInt64.size
  | subFloor, _, _ => true
  | min, _, _ => true

end Arithmetic

/-! ## Steps -/

inductive Step where
  | compute (op : Arithmetic) (a b : UInt64)
  | octet (pos : UInt64)
  | word32 (pos : UInt64)
  | word64 (pos : UInt64)
  | fold32 (register word : UInt32)
  | fold64 (register : UInt32) (word : UInt64)
  /-- A promise of whoever uses the recipe. -/
  | check (holds : Bool)
  deriving DecidableEq

namespace Step

abbrev Answer : Step → Type
  | compute .. => UInt64
  | octet _ => UInt8
  | word32 _ => UInt32
  | word64 _ => UInt64
  | fold32 .. => UInt32
  | fold64 .. => UInt32
  | check _ => Unit

/-- The answer, with wrapping arithmetic and zero for a read outside the key. -/
def answer (kernel : Kernel) (key : Key) : (s : Step) → s.Answer
  | compute op a b => op.eval a b
  | octet pos => (key.octet? pos.toNat).getD 0
  | word32 pos => (key.word32? pos.toNat).getD 0
  | word64 pos => (key.word64? pos.toNat).getD 0
  | fold32 r w => kernel.fold32 r w
  | fold64 r w => kernel.fold64 r w
  | check _ => ()

/-- The answer, if arithmetic is exact, the read is inside the key and the promise holds. -/
def answer? (kernel : Kernel) (key : Key) : (s : Step) → Option s.Answer
  | compute op a b => if op.exact a b then some (op.eval a b) else none
  | octet pos => key.octet? pos.toNat
  | word32 pos => key.word32? pos.toNat
  | word64 pos => key.word64? pos.toNat
  | fold32 r w => some (kernel.fold32 r w)
  | fold64 r w => some (kernel.fold64 r w)
  | check holds => if holds then some () else none

theorem answer_eq_of_answer? {kernel : Kernel} {key : Key} {s : Step} {a : s.Answer}
    (h : s.answer? kernel key = some a) : s.answer kernel key = a := by
  cases s <;> simp_all [answer, answer?]

/-- The window that a step reads: its position and its width. -/
def window? : Step → Option (UInt64 × Nat)
  | octet pos => some (pos, 1)
  | word32 pos => some (pos, 4)
  | word64 pos => some (pos, 8)
  | _ => none

/-- Whether a step folds a word into the register. -/
def isFold : Step → Bool
  | fold32 .. => true
  | fold64 .. => true
  | _ => false

end Step

/-! ## Recipes -/

/-- A result, or a step and what to do with its answer. -/
inductive Recipe (α : Type) where
  | done (a : α)
  | step (s : Step) (next : s.Answer → Recipe α)

namespace Recipe

variable {α β : Type}

def bind : Recipe α → (α → Recipe β) → Recipe β
  | done a, f => f a
  | step s next, f => step s fun x => (next x).bind f

instance : Monad Recipe where
  pure := done
  bind := bind

theorem bind_done (r : Recipe α) : r.bind done = r := by
  induction r with
  | done a => rfl
  | step s next ih => exact congrArg (step s) (funext ih)

theorem bind_bind {γ : Type} (r : Recipe α) (f : α → Recipe β) (g : β → Recipe γ) :
    (r.bind f).bind g = r.bind fun a => (f a).bind g := by
  induction r with
  | done a => rfl
  | step s next ih => exact congrArg (step s) (funext ih)

instance : LawfulMonad Recipe := LawfulMonad.mk' Recipe bind_done (fun _ _ => rfl) bind_bind

/-- The recipe's result, every step answered. -/
def run (kernel : Kernel) (key : Key) : Recipe α → α
  | done a => a
  | step s next => (next (s.answer kernel key)).run kernel key

/-- The recipe's result, if no step leaves the key or the 64-bit range and every promise holds. -/
def run? (kernel : Kernel) (key : Key) : Recipe α → Option α
  | done a => some a
  | step s next => (s.answer? kernel key).bind fun x => (next x).run? kernel key

/-- The steps of a run, in order. -/
def trace (kernel : Kernel) (key : Key) : Recipe α → List Step
  | done _ => []
  | step s next => s :: (next (s.answer kernel key)).trace kernel key

/-- The folds of a run, in order. -/
def folds (kernel : Kernel) (key : Key) (r : Recipe α) : List Step :=
  (r.trace kernel key).filter Step.isFold

/-! ### One step -/

def compute (op : Arithmetic) (a b : UInt64) : Recipe UInt64 := step (.compute op a b) done

def octet (pos : UInt64) : Recipe UInt8 := step (.octet pos) done

def word32 (pos : UInt64) : Recipe UInt32 := step (.word32 pos) done

def word64 (pos : UInt64) : Recipe UInt64 := step (.word64 pos) done

def fold32 (register word : UInt32) : Recipe UInt32 := step (.fold32 register word) done

def fold64 (register : UInt32) (word : UInt64) : Recipe UInt32 := step (.fold64 register word) done

def check (holds : Bool) : Recipe Unit := step (.check holds) done

/-- The word at `pos`, pulled back so that it ends inside a key of `n` bytes. -/
def sample64 (n pos : UInt64) : Recipe UInt64 := do
  let last ← compute .subFloor n 8
  word64 (← compute .min pos last)

/-! ### Runs of the monad operations -/

section

variable (kernel : Kernel) (key : Key)

@[simp] theorem run_pure (a : α) : (pure a : Recipe α).run kernel key = a := rfl

@[simp] theorem run_bind (r : Recipe α) (f : α → Recipe β) :
    (r >>= f).run kernel key = (f (r.run kernel key)).run kernel key := by
  induction r with
  | done a => rfl
  | step s next ih => exact ih _

@[simp] theorem run_compute (op : Arithmetic) (a b : UInt64) :
    (compute op a b).run kernel key = op.eval a b := rfl

@[simp] theorem run_octet (pos : UInt64) :
    (octet pos).run kernel key = (key.octet? pos.toNat).getD 0 := rfl

@[simp] theorem run_word32 (pos : UInt64) :
    (word32 pos).run kernel key = (key.word32? pos.toNat).getD 0 := rfl

@[simp] theorem run_word64 (pos : UInt64) :
    (word64 pos).run kernel key = (key.word64? pos.toNat).getD 0 := rfl

@[simp] theorem run_fold32 (r w : UInt32) :
    (fold32 r w).run kernel key = kernel.fold32 r w := rfl

@[simp] theorem run_fold64 (r : UInt32) (w : UInt64) :
    (fold64 r w).run kernel key = kernel.fold64 r w := rfl

@[simp] theorem run_check (holds : Bool) : (check holds).run kernel key = () := rfl

theorem trace_bind (r : Recipe α) (f : α → Recipe β) :
    (r >>= f).trace kernel key =
      r.trace kernel key ++ (f (r.run kernel key)).trace kernel key := by
  induction r with
  | done a => rfl
  | step s next ih => exact congrArg (s :: ·) (ih _)

end

/-- **Where the guarded run ends, the plain run ends with the same result.** -/
theorem run_eq_of_run? {kernel : Kernel} {key : Key} {r : Recipe α} {a : α}
    (h : r.run? kernel key = some a) : r.run kernel key = a := by
  induction r with
  | done b => simpa [run?, run] using h
  | step s next ih =>
    obtain ⟨x, hx, hn⟩ := Option.bind_eq_some_iff.1 h
    rw [run, Step.answer_eq_of_answer? hx]
    exact ih x hn

end Recipe

end KeyDigest
