import KeyDigest.Proofs.Recipe.Runs

/-!
# What is seen of a run

An observer sees some of the steps of a run. What it sees of two recipes in a row is what it sees
of the first and then of the second, which goes on from the answer of the first.

* `seen_bind_of_run?`: two recipes in a row, the first with a guarded run.
* `seen_foldlM`: a loop whose rounds look the same from any state.
* `clamps_sample64`, `floors_sample64`, `windows_sample64`: what there is to see of a sample.
* `accesses_bind_of_run?`: the reads and folds of two recipes in a row. They show the folds, the
  words folded and the windows.
-/

namespace KeyDigest

/-- Without a limit that the result is held to. -/
def Arithmetic.plain : Arithmetic → Bool
  | add | sub | mul => true
  | subFloor | min => false

namespace Step

/-- The position that a sample asks for, and the last one that it can have. -/
def clamp? : Step → Option (UInt64 × UInt64)
  | compute .min a b => some (a, b)
  | _ => none

/-- The operands of a subtraction that stops at zero. -/
def floor? : Step → Option (UInt64 × UInt64)
  | compute .subFloor a b => some (a, b)
  | _ => none

/-- The observer sees reads and limits of positions at most. -/
structure SeesReads {γ : Type} (see : Step → Option γ) : Prop where
  compute : ∀ op a b, op.plain → see (.compute op a b) = none
  fold32 : ∀ r w, see (.fold32 r w) = none
  fold64 : ∀ r w, see (.fold64 r w) = none
  check : ∀ holds, see (.check holds) = none

theorem seesReads_clamp? : SeesReads clamp? where
  compute op _ _ h := by
    cases op with
    | min => exact absurd h (by decide)
    | _ => rfl
  fold32 _ _ := rfl
  fold64 _ _ := rfl
  check _ := rfl

theorem seesReads_floor? : SeesReads floor? where
  compute op _ _ h := by
    cases op with
    | subFloor => exact absurd h (by decide)
    | _ => rfl
  fold32 _ _ := rfl
  fold64 _ _ := rfl
  check _ := rfl

theorem seesReads_window? : SeesReads window? where
  compute _ _ _ _ := rfl
  fold32 _ _ := rfl
  fold64 _ _ := rfl
  check _ := rfl

end Step

namespace Recipe

variable {α β γ : Type} {kernel : Kernel} {key : Key} {see : Step → Option γ}

/-- What the observer sees of the run, in order. -/
def seen (see : Step → Option γ) (kernel : Kernel) (key : Key) (r : Recipe α) : List γ :=
  (r.trace kernel key).filterMap see

theorem seen_pure (a : α) : (pure a : Recipe α).seen see kernel key = [] := rfl

theorem seen_bind (r : Recipe α) (f : α → Recipe β) :
    (r >>= f).seen see kernel key =
      r.seen see kernel key ++ (f (r.run kernel key)).seen see kernel key := by
  rw [seen, trace_bind, List.filterMap_append]
  rfl

theorem seen_bind_of_run? {r : Recipe α} {f : α → Recipe β} {a : α} {xs ys : List γ}
    (hr : r.run? kernel key = some a) (hx : r.seen see kernel key = xs)
    (hf : (f a).seen see kernel key = ys) : (r >>= f).seen see kernel key = xs ++ ys := by
  rw [seen_bind, run_eq_of_run? hr, hx, hf]

theorem seen_foldlM {f : α → β → Recipe α} {g : β → List γ} (xs : List β)
    (h : ∀ a, ∀ x ∈ xs, (f a x).seen see kernel key = g x) (a : α) :
    (xs.foldlM f a).seen see kernel key = xs.flatMap g := by
  induction xs generalizing a with
  | nil => rfl
  | cons x xs ih =>
    rw [List.foldlM_cons, seen_bind, h a x (List.mem_cons_self ..), List.flatMap_cons,
      ih fun a y hy => h a y (List.mem_cons_of_mem x hy)]

/-! ## Steps that are not seen -/

section

variable (hsee : Step.SeesReads see)
include hsee

theorem seen_compute {op : Arithmetic} (h : op.plain) (a b : UInt64) :
    (compute op a b).seen see kernel key = [] := by
  show [Step.compute op a b].filterMap see = []
  rw [List.filterMap_cons_none (hsee.compute op a b h), List.filterMap_nil]

theorem seen_compute_bind {op : Arithmetic} {a b c : UInt64} {f : UInt64 → Recipe α} {xs : List γ}
    (h : op.plain) (hr : (compute op a b).run? kernel key = some c)
    (hf : (f c).seen see kernel key = xs) : (compute op a b >>= f).seen see kernel key = xs :=
  seen_bind_of_run? hr (seen_compute hsee h a b) hf

theorem seen_fold32 (r w : UInt32) : (fold32 r w).seen see kernel key = [] := by
  show [Step.fold32 r w].filterMap see = []
  rw [List.filterMap_cons_none (hsee.fold32 r w), List.filterMap_nil]

theorem seen_fold64 (r : UInt32) (w : UInt64) : (fold64 r w).seen see kernel key = [] := by
  show [Step.fold64 r w].filterMap see = []
  rw [List.filterMap_cons_none (hsee.fold64 r w), List.filterMap_nil]

theorem seen_check (holds : Bool) : (check holds).seen see kernel key = [] := by
  show [Step.check holds].filterMap see = []
  rw [List.filterMap_cons_none (hsee.check holds), List.filterMap_nil]

end

/-! ## Samples -/

section

variable {p : Nat} (hkey : key.size < 2 ^ 64)
include hkey

theorem clamps_sample64 :
    (sample64 key.length64 (.ofNat p)).seen Step.clamp? kernel key =
      [(.ofNat p, .ofNat (key.size - 8))] := by
  refine seen_bind_of_run? (run?_subFloor (b := 8) hkey (by decide)) rfl ?_
  rfl

theorem floors_sample64 :
    (sample64 key.length64 (.ofNat p)).seen Step.floor? kernel key = [(key.length64, 8)] := by
  refine seen_bind_of_run? (run?_subFloor (b := 8) hkey (by decide)) rfl ?_
  rfl

theorem windows_sample64 (h : 8 ≤ key.size) (hp : p < 2 ^ 64) :
    (sample64 key.length64 (.ofNat p)).seen Step.window? kernel key =
      [(.ofNat (min p (key.size - 8)), 8)] := by
  refine seen_bind_of_run? (run?_subFloor (b := 8) hkey (by decide)) rfl ?_
  refine seen_bind_of_run? (run?_min hp (by omega)) rfl ?_
  rfl

end

end Recipe

/-! ## Reads and folds -/

namespace Step

/-- Whether a step reads the key or folds a word. Other steps work on positions, or promise. -/
def isAccess : Step → Bool
  | compute .. => false
  | check _ => false
  | _ => true

/-- The word that a 64-bit fold takes in. -/
def datum? : Step → Option UInt64
  | fold64 _ w => some w
  | _ => none

end Step

namespace Recipe

variable {α β : Type} {kernel : Kernel} {key : Key}

/-- The reads and folds of a run, in order. -/
def accesses (kernel : Kernel) (key : Key) (r : Recipe α) : List Step :=
  (r.trace kernel key).filter Step.isAccess

theorem accesses_bind_of_run? {r : Recipe α} {f : α → Recipe β} {a : α} {x y : List Step}
    (hr : r.run? kernel key = some a) (hx : r.accesses kernel key = x)
    (hf : (f a).accesses kernel key = y) : (r >>= f).accesses kernel key = x ++ y := by
  rw [accesses, trace_bind, List.filter_append, run_eq_of_run? hr, ← accesses, ← accesses, hx, hf]

theorem folds_eq_filter_accesses (r : Recipe α) :
    r.folds kernel key = (r.accesses kernel key).filter Step.isFold := by
  rw [folds, accesses, List.filter_filter]
  refine List.filter_congr fun s _ => ?_
  cases s <;> rfl

theorem data_eq_filterMap_accesses (r : Recipe α) :
    (r.folds kernel key).filterMap Step.datum? =
      (r.accesses kernel key).filterMap Step.datum? := by
  rw [folds_eq_filter_accesses, List.filterMap_filter]
  refine List.filterMap_congr fun s _ => ?_
  cases s <;> rfl

theorem windows_eq_filterMap_accesses (r : Recipe α) :
    (r.trace kernel key).filterMap Step.window? =
      (r.accesses kernel key).filterMap Step.window? := by
  rw [accesses, List.filterMap_filter]
  refine List.filterMap_congr fun s _ => ?_
  cases s <;> rfl

/-! ## The number of folds -/

theorem folds_bind (r : Recipe α) (f : α → Recipe β) :
    (r >>= f).folds kernel key =
      r.folds kernel key ++ (f (r.run kernel key)).folds kernel key := by
  rw [folds, trace_bind, List.filter_append]
  rfl

/-- A loop that folds the same number of words in every round. -/
theorem length_folds_foldlM {f : α → β → Recipe α} {c : Nat}
    (h : ∀ a x, ((f a x).folds kernel key).length = c) (xs : List β) (a : α) :
    ((xs.foldlM f a).folds kernel key).length = c * xs.length := by
  induction xs generalizing a with
  | nil => rfl
  | cons x xs ih =>
    rw [List.foldlM_cons, folds_bind, List.length_append, h, ih, List.length_cons,
      Nat.mul_succ, Nat.add_comm]

end Recipe

end KeyDigest
