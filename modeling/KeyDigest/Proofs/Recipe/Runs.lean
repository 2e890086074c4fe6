import Mathlib
import KeyDigest.Recipe

/-!
# Runs of a recipe

* `run_congr`, `trace_congr`: a recipe cannot tell two kernels that agree apart.
* `isSome_run?_iff`: the guarded run comes to an end exactly if every step of the plain run is
  exact and inside the key.
* `run?_add`, `run?_word64` and their like: one step of a guarded run, with the position as a
  natural number. `run?_bind_eq_some` puts the steps together.
-/

namespace KeyDigest

/-! ## Kernels that agree -/

theorem Step.answer_congr {k k' : Kernel} (h : k.Agree k') (key : Key) (s : Step) :
    s.answer k key = s.answer k' key := by
  cases s with
  | fold32 r w => exact h.fold32 r w
  | fold64 r w => exact h.fold64 r w
  | _ => rfl

namespace Recipe

variable {α β : Type}

theorem run_congr {k k' : Kernel} (h : k.Agree k') (key : Key) (r : Recipe α) :
    r.run k key = r.run k' key := by
  induction r with
  | done a => rfl
  | step s next ih => rw [run, run, Step.answer_congr h, ih]

theorem trace_congr {k k' : Kernel} (h : k.Agree k') (key : Key) (r : Recipe α) :
    r.trace k key = r.trace k' key := by
  induction r with
  | done a => rfl
  | step s next ih => rw [trace, trace, Step.answer_congr h, ih]

end Recipe

/-! ## Steps that stay inside -/

/-- The arithmetic of the step is exact, its window lies in the key, its promise holds. -/
def Step.Inside (key : Key) : Step → Prop
  | compute op a b => op.exact a b
  | octet pos => pos.toNat + 1 ≤ key.size
  | word32 pos => pos.toNat + 4 ≤ key.size
  | word64 pos => pos.toNat + 8 ≤ key.size
  | fold32 .. => True
  | fold64 .. => True
  | check holds => holds

theorem Step.isSome_answer?_iff (kernel : Kernel) (key : Key) (s : Step) :
    (s.answer? kernel key).isSome ↔ s.Inside key := by
  cases s with
  | compute op a b => cases h : op.exact a b <;> simp [answer?, Inside, h]
  | octet pos => exact key.isSome_octet? pos.toNat
  | word32 pos => exact key.isSome_word32? pos.toNat
  | word64 pos => exact key.isSome_word64? pos.toNat
  | fold32 r w => simp [answer?, Inside]
  | fold64 r w => simp [answer?, Inside]
  | check holds => cases holds <;> simp [answer?, Inside]

namespace Recipe

variable {α β : Type} {kernel : Kernel} {key : Key}

/-- **The guarded run ends exactly if the plain run stays inside.** -/
theorem isSome_run?_iff {r : Recipe α} :
    (r.run? kernel key).isSome ↔ ∀ s ∈ r.trace kernel key, s.Inside key := by
  induction r with
  | done a => simp [run?, trace]
  | step s next ih =>
    rw [run?, trace, List.forall_mem_cons, ← Step.isSome_answer?_iff kernel]
    cases h : s.answer? kernel key with
    | none => simp
    | some x =>
      rw [Step.answer_eq_of_answer? h]
      simpa using ih x

/-! ## Guarded runs -/

theorem run?_eq_some_run {r : Recipe α} {a : α} (h : r.run? kernel key = some a) :
    r.run? kernel key = some (r.run kernel key) := by
  rw [h, run_eq_of_run? h]

theorem run?_pure (a : α) : (pure a : Recipe α).run? kernel key = some a := rfl

theorem run?_bind (r : Recipe α) (f : α → Recipe β) :
    (r >>= f).run? kernel key = (r.run? kernel key).bind fun a => (f a).run? kernel key := by
  induction r with
  | done a => rfl
  | step s next ih =>
    show (s.answer? kernel key).bind (fun x => (next x >>= f).run? kernel key) =
      ((s.answer? kernel key).bind fun x => (next x).run? kernel key).bind _
    rw [Option.bind_assoc]
    exact congrArg _ (funext ih)

theorem run?_bind_eq_some {r : Recipe α} {f : α → Recipe β} {a : α} {b : β}
    (hr : r.run? kernel key = some a) (hf : (f a).run? kernel key = some b) :
    (r >>= f).run? kernel key = some b := by
  rw [run?_bind, hr, Option.bind_some, hf]

theorem run?_foldlM {f : α → β → Recipe α} {g : α → β → α} (xs : List β)
    (h : ∀ a, ∀ x ∈ xs, (f a x).run? kernel key = some (g a x)) (a : α) :
    (xs.foldlM f a).run? kernel key = some (xs.foldl g a) := by
  induction xs generalizing a with
  | nil => rfl
  | cons x xs ih =>
    rw [List.foldlM_cons, List.foldl_cons]
    exact run?_bind_eq_some (h a x (List.mem_cons_self ..))
      (ih (fun a y hy => h a y (List.mem_cons_of_mem x hy)) (g a x))

end Recipe

/-! ## Reads at natural positions -/

namespace Key

variable {key : Key} {pos : Nat}

/-- The byte at `pos`, zero outside the key. -/
def octetAt (key : Key) (pos : Nat) : UInt8 := (key.octet? pos).getD 0

/-- The word in the four bytes from `pos` on, zero if they are not all in the key. -/
def word32At (key : Key) (pos : Nat) : UInt32 := (key.word32? pos).getD 0

/-- The word in the eight bytes from `pos` on, zero if they are not all in the key. -/
def word64At (key : Key) (pos : Nat) : UInt64 := (key.word64? pos).getD 0

theorem octet?_eq_some (h : pos < key.size) : key.octet? pos = some (key.octetAt pos) :=
  (Option.some_get ((key.isSome_octet? pos).2 h)).symm.trans
    (congrArg some (Option.get_eq_getD _))

theorem word32?_eq_some (h : pos + 4 ≤ key.size) : key.word32? pos = some (key.word32At pos) :=
  (Option.some_get ((key.isSome_word32? pos).2 h)).symm.trans
    (congrArg some (Option.get_eq_getD _))

theorem word64?_eq_some (h : pos + 8 ≤ key.size) : key.word64? pos = some (key.word64At pos) :=
  (Option.some_get ((key.isSome_word64? pos).2 h)).symm.trans
    (congrArg some (Option.get_eq_getD _))

end Key

namespace Recipe

variable {kernel : Kernel} {key : Key} {a b p : Nat}

theorem run?_compute {op : Arithmetic} {x y : UInt64} (h : op.exact x y) :
    (compute op x y).run? kernel key = some (op.eval x y) := by
  show (if op.exact x y then some (op.eval x y) else none).bind some = _
  rw [if_pos h, Option.bind_some]

theorem toNat_ofNat (h : a < 2 ^ 64) : (UInt64.ofNat a).toNat = a := UInt64.toNat_ofNat_of_lt' h

theorem ofNat_shiftRight (h : a < 2 ^ 64) (hb : b < 64) :
    UInt64.ofNat a >>> UInt64.ofNat b = .ofNat (a / 2 ^ b) := by
  have hdiv : a / 2 ^ b < 2 ^ 64 := (Nat.div_le_self a _).trans_lt h
  apply UInt64.toNat_inj.1
  rw [UInt64.toNat_shiftRight, toNat_ofNat h, toNat_ofNat (by omega), toNat_ofNat hdiv,
    Nat.mod_eq_of_lt hb, Nat.shiftRight_eq_div_pow]

theorem toUInt32_ofNat (a : Nat) : (UInt64.ofNat a).toUInt32 = .ofNat a := by
  apply UInt32.toNat_inj.1
  simp

theorem toUInt32_length64 (key : Key) : key.length64.toUInt32 = .ofNat key.size :=
  toUInt32_ofNat key.size

theorem run?_add (h : a + b < 2 ^ 64) :
    (compute .add (.ofNat a) (.ofNat b)).run? kernel key = some (.ofNat (a + b)) := by
  rw [run?_compute, Arithmetic.eval, UInt64.ofNat_add]
  rw [Arithmetic.exact, toNat_ofNat (by omega), toNat_ofNat (by omega)]
  exact decide_eq_true h

theorem run?_sub (hab : b ≤ a) (h : a < 2 ^ 64) :
    (compute .sub (.ofNat a) (.ofNat b)).run? kernel key = some (.ofNat (a - b)) := by
  rw [run?_compute, Arithmetic.eval, UInt64.ofNat_sub hab]
  exact decide_eq_true ((UInt64.ofNat_le_iff_le (hab.trans_lt h) h).2 hab)

theorem run?_mul (h : a * b < 2 ^ 64) :
    (compute .mul (.ofNat a) (.ofNat b)).run? kernel key = some (.ofNat (a * b)) := by
  have hle : (UInt64.ofNat a).toNat * (UInt64.ofNat b).toNat ≤ a * b :=
    Nat.mul_le_mul (Nat.mod_le _ _) (Nat.mod_le _ _)
  rw [run?_compute, Arithmetic.eval, UInt64.ofNat_mul]
  exact decide_eq_true (hle.trans_lt h)

theorem run?_subFloor (ha : a < 2 ^ 64) (hb : b < 2 ^ 64) :
    (compute .subFloor (.ofNat a) (.ofNat b)).run? kernel key = some (.ofNat (a - b)) := by
  rw [run?_compute rfl, Arithmetic.eval]
  by_cases h : b ≤ a
  · rw [if_pos ((UInt64.ofNat_le_iff_le hb ha).2 h), UInt64.ofNat_sub h]
  · rw [if_neg fun hle => h ((UInt64.ofNat_le_iff_le hb ha).1 hle),
      Nat.sub_eq_zero_of_le (by omega)]
    rfl

theorem run?_min (ha : a < 2 ^ 64) (hb : b < 2 ^ 64) :
    (compute .min (.ofNat a) (.ofNat b)).run? kernel key = some (.ofNat (min a b)) := by
  rw [run?_compute rfl, Arithmetic.eval]
  by_cases h : a ≤ b
  · rw [if_pos ((UInt64.ofNat_le_iff_le ha hb).2 h), Nat.min_eq_left h]
  · rw [if_neg fun hle => h ((UInt64.ofNat_le_iff_le ha hb).1 hle), Nat.min_eq_right (by omega)]

theorem run?_check (holds : Bool) (h : holds = true) :
    (check holds).run? kernel key = some () := by
  rw [h]
  rfl

theorem run?_fold32 (r w : UInt32) : (fold32 r w).run? kernel key = some (kernel.fold32 r w) := rfl

theorem run?_fold64 (r : UInt32) (w : UInt64) :
    (fold64 r w).run? kernel key = some (kernel.fold64 r w) := rfl

section

variable (hkey : key.size < 2 ^ 64)
include hkey

theorem run?_octet (h : p < key.size) :
    (octet (.ofNat p)).run? kernel key = some (key.octetAt p) := by
  show (key.octet? (UInt64.ofNat p).toNat).bind some = _
  rw [toNat_ofNat (h.trans hkey), Key.octet?_eq_some h, Option.bind_some]

theorem run?_word32 (h : p + 4 ≤ key.size) :
    (word32 (.ofNat p)).run? kernel key = some (key.word32At p) := by
  show (key.word32? (UInt64.ofNat p).toNat).bind some = _
  rw [toNat_ofNat (by omega), Key.word32?_eq_some h, Option.bind_some]

theorem run?_word64 (h : p + 8 ≤ key.size) :
    (word64 (.ofNat p)).run? kernel key = some (key.word64At p) := by
  show (key.word64? (UInt64.ofNat p).toNat).bind some = _
  rw [toNat_ofNat (by omega), Key.word64?_eq_some h, Option.bind_some]

/-- A sample is pulled back to the last word of the key. -/
theorem run?_sample64 (h : 8 ≤ key.size) (hp : p < 2 ^ 64) :
    (sample64 key.length64 (.ofNat p)).run? kernel key =
      some (key.word64At (min p (key.size - 8))) := by
  refine run?_bind_eq_some (run?_subFloor (b := 8) hkey (by decide)) ?_
  refine run?_bind_eq_some (run?_min hp (by omega)) ?_
  exact run?_word64 hkey (by omega)

end

end Recipe

end KeyDigest
