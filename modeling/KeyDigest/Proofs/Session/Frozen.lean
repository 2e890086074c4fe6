import KeyDigest.Proofs.Hasher.Kernels
import KeyDigest.Session

/-!
# The selection is frozen at first use

A session makes its selection when a request first needs it, by the capabilities that are in force
at that moment, and whatever is asked later is answered by that selection. So the session answers
like one that made its selection beforehand: `replies` has the hasher as a parameter and keeps no
state but the override and the number of installs.

* `make_same`: the selection when all looks at the capabilities see the same.
* `snd_step`: the reply to one request.
* `selectionFor_step`, `snd_run`: the replies to a row of requests.

**Theorem (`selection_frozen`).** The replies of every session are those of one fixed selection.
-/

namespace KeyDigest

open Sampling

/-! ## Requests -/

namespace Request

/-- Whether the reply needs the selection. -/
def selects : Request → Bool
  | settings | installed | override _ => false
  | _ => true

def installs : Request → Bool
  | install => true
  | _ => false

/-- The override after a request. -/
def overridden (o : Override.Cells) : Request → Override.Cells
  | override call => call.make o
  | _ => o

/-- The reply to a request under a selection `s` that was made beforehand, when the override is in
the state `o` and the context was written `n` times. -/
def reply (e : Environment) (detected : Capabilities) (s : Selection) (o : Override.Cells)
    (n : Nat) : Request → Reply
  | settings =>
    let now := (Detection.current detected o).capabilities
    .settings ⟨e.requested, e.requested.clamp now.hasInstruction, e.pinned⟩
  | selected => .selected s.hasher
  | install => .install s.hasher ⟨some s.hasher, n + 1⟩
  | installed => .installed (if n = 0 then none else some s.hasher)
  | digest key => .digest (s.hasher.digest key)
  | band n => .band (s.hasher.band? n)
  | route n => .route ⟨s.hasher.name, s.hasher.band? n⟩
  | report => .report ⟨s.hasher, .host, s.capabilities, s.settings.requested,
      s.settings.effective, s.settings.seed.isSome⟩
  | table => .table s.hasher.table.table
  | override call =>
    .override ((call.make o).current.map fun c => ⟨c, .host⟩)

end Request

/-! ## The selection that is made -/

namespace Selection

/-- The selection of a process whose machine has the capabilities `c`: the banded hasher on the
instruction if the machine has SSE4.2 and the portable one was not asked for. -/
def under (e : Environment) (entropy : UInt32) (c : Capabilities) : Selection where
  hasher :=
    if e.requested ≠ .portable ∧ c.has .sse42 then .onKernel .hardware (tableOf e.pinned entropy)
    else .portable
  settings := ⟨e.requested, e.requested.clamp c.hasInstruction, e.pinned⟩
  capabilities := c

theorem clamp_eq_portable_iff {p : Preference} {b : Bool} :
    p.clamp b = .portable ↔ p = .portable := by
  cases p <;> cases b <;> decide

theorem make_same (e : Environment) (entropy : UInt32) (c : Capabilities) :
    make e entropy (.same c) = under e entropy c := by
  have hsse42 : c.has .sse42 = c.hasInstruction := rfl
  simp only [make, under, Looks.same, Settings.ofEnvironment, hsse42, clamp_eq_portable_iff]
  congr 1
  by_cases hportable : e.requested = .portable
  · simp [hportable]
  · cases hinstruction : c.hasInstruction with
    | false => simp
    | true => simp [hportable, accelerated, Hasher.accelerated_eq_ok hinstruction]

/-- Only the banded hasher has a table of its own, and a pinned seed determines it. -/
theorem table_under {e : Environment} {entropy : UInt32} {c : Capabilities} {seed : UInt32}
    (hseed : e.pinned = some seed) (hbanded : (under e entropy c).hasher.banded) :
    (under e entropy c).hasher.table.table = .ofSeed seed := by
  unfold under at hbanded ⊢
  dsimp only at hbanded ⊢
  split
  · rw [hseed]
    rfl
  · next hportable =>
    rw [if_neg hportable] at hbanded
    cases hbanded

end Selection

namespace Session

/-! ## One request -/

section Step

variable {p : Session} {s : Selection} {r : Request}

/-- The selection of a session: the one that was made, or would be made now. -/
theorem snd_select (p : Session) :
    p.select.2 =
      p.selection.value.getD (.under p.environment p.entropy p.detection.capabilities) := by
  rw [← Selection.make_same]
  exact Once.Blocking.snd_fill (fun _ => p.selectAmid [] []) p.selection

theorem environment_step (p : Session) (r : Request) :
    (p.step r).1.environment = p.environment := by
  cases r <;> rfl

theorem entropy_step (p : Session) (r : Request) : (p.step r).1.entropy = p.entropy := by
  cases r <;> rfl

theorem detected_step (p : Session) (r : Request) : (p.step r).1.detected = p.detected := by
  cases r <;> rfl

theorem override_step (p : Session) (r : Request) :
    (p.step r).1.override = r.overridden p.override := by
  cases r <;> rfl

/-- A request that needs the selection leaves it made. -/
theorem selection_step (p : Session) (r : Request) :
    (p.step r).1.selection.value = if r.selects then some p.select.2 else p.selection.value := by
  have hfill : p.select.1.selection.value = some p.select.2 :=
    Once.Blocking.value_fill (fun _ => p.selectAmid [] []) p.selection
  cases r <;> first | rfl | exact hfill

/-- The context holds the hasher of the selection if it was written. -/
def Holds (context : Context) (s : Selection) : Prop :=
  context.installed = if context.installs = 0 then none else some s.hasher

theorem snd_step (hs : r.selects → p.select.2 = s) (hcontext : Holds p.context s) :
    (p.step r).2 = r.reply p.environment p.detected s p.override p.context.installs := by
  cases r with
  | settings => rfl
  | installed => exact congrArg Reply.installed hcontext
  | override call =>
    simp only [step, Request.reply, detection, Detection.current]
    cases (call.make p.override).current <;> rfl
  | _ =>
    obtain rfl := hs rfl
    rfl

theorem installs_step (p : Session) (r : Request) :
    (p.step r).1.context.installs = p.context.installs + if r.installs then 1 else 0 := by
  cases r <;> rfl

theorem holds_step (hs : r.selects → p.select.2 = s) (hcontext : Holds p.context s) :
    Holds (p.step r).1.context s := by
  cases r with
  | install =>
    obtain rfl := hs rfl
    exact (if_neg (Nat.succ_ne_zero _)).symm
  | _ => exact hcontext

end Step

/-! ## Rows of requests -/

/-- The capabilities in force when the first of the requests comes that needs the selection: those
of the override, if one is set by then. -/
def inForce (detected : Capabilities) (o : Override.Cells) (rs : List Request) : Capabilities :=
  let first := (rs.takeWhile fun r => !r.selects).foldl Request.overridden o
  (Detection.current detected first).capabilities

theorem inForce_cons_of_selects {r : Request} (h : r.selects) (detected : Capabilities)
    (o : Override.Cells) (rs : List Request) :
    inForce detected o (r :: rs) = (Detection.current detected o).capabilities := by
  simp [inForce, h]

theorem inForce_cons_of_not_selects {r : Request} (h : ¬ r.selects) (detected : Capabilities)
    (o : Override.Cells) (rs : List Request) :
    inForce detected o (r :: rs) = inForce detected (r.overridden o) rs := by
  simp [inForce, h]

/-- The replies of a session whose selection `s` was made beforehand. -/
def replies (e : Environment) (detected : Capabilities) (s : Selection) :
    Override.Cells → Nat → List Request → List Reply
  | _, _, [] => []
  | o, n, r :: rs => r.reply e detected s o n ::
      replies e detected s (r.overridden o) (n + if r.installs then 1 else 0) rs

theorem run_cons (p : Session) (r : Request) (rs : List Request) :
    p.run (r :: rs) =
      (((p.step r).1.run rs).1, (p.step r).2 :: ((p.step r).1.run rs).2) := rfl

/-- The selection that a session has made, or will make in the course of the requests. -/
def selectionFor (p : Session) (rs : List Request) : Selection :=
  p.selection.value.getD (.under p.environment p.entropy (inForce p.detected p.override rs))

theorem snd_select_of_selects {p : Session} {r : Request} {rs : List Request} (h : r.selects) :
    p.select.2 = p.selectionFor (r :: rs) := by
  rw [snd_select, selectionFor, inForce_cons_of_selects h]
  rfl

/-- One request does not change which selection that is. -/
theorem selectionFor_step (p : Session) (r : Request) (rs : List Request) :
    (p.step r).1.selectionFor rs = p.selectionFor (r :: rs) := by
  rw [selectionFor, selection_step]
  by_cases h : r.selects
  · rw [if_pos h, Option.getD_some, snd_select_of_selects h]
  · rw [if_neg h, environment_step, entropy_step, detected_step, override_step, selectionFor,
      inForce_cons_of_not_selects h]

theorem snd_run (rs : List Request) {p : Session} (h : Holds p.context (p.selectionFor rs)) :
    (p.run rs).2 =
      replies p.environment p.detected (p.selectionFor rs) p.override p.context.installs rs := by
  induction rs generalizing p with
  | nil => rfl
  | cons r rs ih =>
    have hreply := snd_step (r := r) snd_select_of_selects h
    have hrest := ih (p := (p.step r).1) (by
      rw [selectionFor_step]
      exact holds_step snd_select_of_selects h)
    rw [selectionFor_step, environment_step, detected_step, override_step, installs_step] at hrest
    rw [run_cons, hreply, hrest, replies]

theorem context_run (rs : List Request) {p : Session} (h : Holds p.context (p.selectionFor rs)) :
    (p.run rs).1.context.installs = p.context.installs + rs.countP Request.installs ∧
      Holds (p.run rs).1.context (p.selectionFor rs) := by
  induction rs generalizing p with
  | nil => exact ⟨rfl, h⟩
  | cons r rs ih =>
    obtain ⟨hinstalls, hholds⟩ := ih (p := (p.step r).1) (by
      rw [selectionFor_step]
      exact holds_step snd_select_of_selects h)
    rw [run_cons, ← selectionFor_step]
    refine ⟨?_, hholds⟩
    rw [hinstalls, installs_step, List.countP_cons, Nat.add_assoc, Nat.add_comm (List.countP _ _)]

/-- **The selection is frozen at first use.** Every session, whatever its environment and its
override are and whatever is asked of it, replies as if one selection had been made beforehand: that
for the capabilities in force when it was first needed. Each install writes the context once and
leaves the hasher of that selection in it. A pinned seed determines the table. -/
theorem selection_frozen (e : Environment) (entropy : UInt32) (detected o : Capabilities)
    (rs : List Request) :
    let p := start e entropy detected o
    let s := Selection.under e entropy (inForce detected ⟨true, o⟩ rs)
    (p.run rs).2 = replies e detected s ⟨true, o⟩ 0 rs ∧
    (p.run rs).1.context.installs = rs.countP Request.installs ∧
    (p.run rs).1.context.installed =
      (if rs.countP Request.installs = 0 then none else some s.hasher) ∧
    ∀ seed, e.pinned = some seed → s.hasher.banded → s.hasher.table.table = .ofSeed seed := by
  intro p s
  have hoverride : p.override = ⟨true, o⟩ := Override.make_set o {}
  have hs : p.selectionFor rs = s := by
    rw [selectionFor, hoverride]
    rfl
  have hholds : Holds p.context (p.selectionFor rs) := rfl
  obtain ⟨hinstalls, hinstalled⟩ := context_run rs hholds
  have hzero : p.context.installs = 0 := rfl
  rw [hzero, Nat.zero_add] at hinstalls
  refine ⟨?_, hinstalls, ?_, ?_⟩
  · rw [snd_run rs hholds, hs, hoverride]
    rfl
  · rw [hinstalled, hinstalls, hs]
  · intro seed hseed hbanded
    exact Selection.table_under hseed hbanded

/-- Requests of which the third one is the first to need the selection: SSE4.2 counts by then, and
taking it away again changes no reply. -/
theorem selection_frozen_sse42 :
    let e : Environment :=
      ⟨some #[0x20, 0x48, 0x77, 0x43, 0x72, 0x63], some #[0x30, 0x78, 0x32, 0x41]⟩
    let rs : List Request := [.settings, .override (.set .sse42), .install, .override .clear,
      .selected, .settings]
    let s := Selection.under e 5 (inForce .sse2 ⟨true, .none⟩ rs)
    e.pinned = some 42 ∧ s.hasher.banded ∧ s.hasher.table.table = .ofSeed 42 ∧
    ((start e 5 .sse2 .none).run rs).2 = replies e .sse2 s ⟨true, .none⟩ 0 rs := by
  intro e rs s
  have hseed : e.pinned = some 42 := by decide
  have hforce : inForce .sse2 ⟨true, .none⟩ rs = .sse42 := by
    simp [rs, inForce, Request.selects, Request.overridden, Detection.current,
      Override.Cells.current]
  have hbanded : s.hasher.banded := by
    simp only [s, hforce]
    decide
  obtain ⟨hreplies, -, -, htable⟩ := selection_frozen e 5 .sse2 .none rs
  exact ⟨hseed, hbanded, htable 42 hseed hbanded, hreplies⟩

end Session

end KeyDigest
