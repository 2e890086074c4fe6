import KeyDigest.Proofs.Session.Frozen

/-!
# Selections made while the override changes

A selection is coherent if its record of the capabilities explains it: the preference in force is
the one asked for on such a machine, and the hasher is the one for that preference. The three looks
at the capabilities are apart from each other, and other threads may make calls on the override in
between, so each look may see what the others do not (`amid_set`).

* `coherent_make_iff`: which looks lead to a coherent selection.
* `hasInstruction_amid`: what the looks see if no call adds or takes away the instruction.

**Theorem (`coherent_selectAmid_iff`).** The selection is coherent just if the look for the settings
agrees with the record, as far as the instruction was asked for, and the look for the kernel still
sees an instruction that the record has, as far as the portable digest was not asked for.
-/

namespace KeyDigest

/-! ## Coherence -/

namespace Selection

/-- The recorded capabilities explain the preference in force and the hasher. -/
structure Coherent (s : Selection) : Prop where
  effective : s.settings.effective = s.settings.requested.clamp (s.capabilities.has .sse42)
  banded : s.hasher.banded ↔ s.capabilities.has .sse42 ∧ s.settings.effective ≠ .portable

variable {e : Environment} {entropy : UInt32} {seen : Looks}

theorem banded_accelerated (machine : Capabilities) (table : TableRef) :
    (accelerated machine table).banded = machine.hasInstruction := by
  rw [accelerated, Hasher.accelerated, Kernel.hardware?]
  cases machine.hasInstruction <;> rfl

theorem banded_make_iff :
    (make e entropy seen).hasher.banded ↔ e.requested ≠ .portable ∧
      seen.recorded.hasInstruction ∧ seen.kernel.hasInstruction := by
  simp only [make, Settings.ofEnvironment, clamp_eq_portable_iff]
  by_cases hportable : e.requested = .portable
  · simp [hportable, Hasher.portable]
  · cases hrecorded : seen.recorded.hasInstruction with
    | false => simp [Hasher.portable]
    | true => simp [hportable, banded_accelerated]

/-- Only the instruction is fitted to the machine. -/
theorem clamp_eq_clamp_iff {p : Preference} {a b : Bool} :
    p.clamp a = p.clamp b ↔ p = .instruction → a = b := by
  cases p <;> cases a <;> cases b <;> decide

theorem coherent_make_iff :
    (make e entropy seen).Coherent ↔
      (e.requested = .instruction →
        seen.settings.hasInstruction = seen.recorded.hasInstruction) ∧
      (e.requested ≠ .portable → seen.recorded.hasInstruction → seen.kernel.hasInstruction) := by
  have hportable : (make e entropy seen).settings.effective = .portable ↔
      e.requested = .portable := clamp_eq_portable_iff
  have hsse42 : (make e entropy seen).capabilities.has .sse42 =
      seen.recorded.hasInstruction := rfl
  constructor
  · rintro ⟨heffective, hbanded⟩
    refine ⟨clamp_eq_clamp_iff.mp heffective, fun hne hrecorded => ?_⟩
    have hne' : (make e entropy seen).settings.effective ≠ .portable := mt hportable.mp hne
    exact (banded_make_iff.mp (hbanded.mpr ⟨hrecorded, hne'⟩)).2.2
  · rintro ⟨heffective, hkernel⟩
    refine ⟨clamp_eq_clamp_iff.mpr heffective, ?_⟩
    rw [banded_make_iff, hsse42, ne_eq, ne_eq, hportable]
    exact ⟨fun ⟨hne, hrecorded, _⟩ => ⟨hrecorded, hne⟩,
      fun ⟨hrecorded, hne⟩ => ⟨hne, hrecorded, hkernel hne hrecorded⟩⟩

/-- Looks that see the same make a coherent selection. -/
theorem coherent_under (e : Environment) (entropy : UInt32) (c : Capabilities) :
    (under e entropy c).Coherent := by
  rw [← make_same]
  exact coherent_make_iff.mpr ⟨fun _ => rfl, fun _ h => h⟩

end Selection

/-! ## Calls between the looks -/

namespace Override.Call

/-- The call does not change whether the override, or the detection where there is none, has the
instruction. -/
def Keeps (detected : Capabilities) (hasInstruction : Bool) : Override.Call → Prop
  | set c => c.hasInstruction = hasInstruction
  | clear => detected.hasInstruction = hasInstruction
  | get => True

variable {detected : Capabilities} {b : Bool} {s : Override.Cells}

theorem hasInstruction_make {call : Override.Call} (hkeeps : call.Keeps detected b)
    (hs : (Detection.current detected s).capabilities.hasInstruction = b) :
    (Detection.current detected (call.make s)).capabilities.hasInstruction = b := by
  cases call with
  | set c =>
    rw [make_set]
    exact hkeeps
  | clear =>
    rw [make_clear]
    exact hkeeps
  | get =>
    rw [make_get]
    exact hs

theorem hasInstruction_foldl {calls : List Override.Call}
    (hkeeps : ∀ call ∈ calls, call.Keeps detected b)
    (hs : (Detection.current detected s).capabilities.hasInstruction = b) :
    (Detection.current detected
      (calls.foldl (fun s call => call.make s) s)).capabilities.hasInstruction = b := by
  induction calls generalizing s with
  | nil => exact hs
  | cons call calls ih =>
    rw [List.forall_mem_cons] at hkeeps
    exact ih hkeeps.2 (hasInstruction_make hkeeps.1 hs)

end Override.Call

namespace Looks

/-- Any three words can be seen: two calls are enough. -/
theorem amid_set (detected : Capabilities) (seen : Looks) :
    amid detected ⟨true, seen.recorded⟩ [.set seen.settings] [.set seen.kernel] = seen := by
  simp [amid, Detection.current, Override.Cells.current]

theorem hasInstruction_amid {detected : Capabilities} {s : Override.Cells}
    {first second : List Override.Call}
    (hkeeps : ∀ call ∈ first ++ second,
      call.Keeps detected (Detection.current detected s).capabilities.hasInstruction) :
    let seen := amid detected s first second
    seen.settings.hasInstruction = seen.recorded.hasInstruction ∧
      seen.kernel.hasInstruction = seen.recorded.hasInstruction := by
  rw [List.forall_mem_append] at hkeeps
  have hsettings := Override.Call.hasInstruction_foldl hkeeps.1 rfl
  exact ⟨hsettings, Override.Call.hasInstruction_foldl hkeeps.2 hsettings⟩

end Looks

namespace Session

/-- A selection is coherent if no call in the meantime adds the instruction or takes it away. -/
theorem coherent_selectAmid {p : Session} {first second : List Override.Call}
    (hkeeps : ∀ call ∈ first ++ second,
      call.Keeps p.detected p.detection.capabilities.hasInstruction) :
    (p.selectAmid first second).Coherent := by
  obtain ⟨hsettings, hkernel⟩ := Looks.hasInstruction_amid hkeeps
  exact Selection.coherent_make_iff.mpr ⟨fun _ => hsettings, fun _ hrecorded => hkernel ▸ hrecorded⟩

/-- **When a selection is coherent.** Whatever calls on the override other threads make between the
three looks at the capabilities, the selection is coherent if and only if the settings were worked
out with the instruction where the record has it, supposing that it was asked for, and the kernel
was found where the record has the instruction, supposing that the portable digest was not asked
for. -/
theorem coherent_selectAmid_iff (p : Session) (first second : List Override.Call) :
    let seen := Looks.amid p.detected p.override first second
    (p.selectAmid first second).Coherent ↔
      (p.environment.requested = .instruction →
        seen.settings.hasInstruction = seen.recorded.hasInstruction) ∧
      (p.environment.requested ≠ .portable →
        seen.recorded.hasInstruction → seen.kernel.hasInstruction) :=
  Selection.coherent_make_iff

/-- The selection of a session whose override was set when it started. -/
theorem selectAmid_start (e : Environment) (entropy : UInt32) (detected : Capabilities)
    (seen : Looks) :
    (start e entropy detected seen.recorded).selectAmid [.set seen.settings] [.set seen.kernel] =
      .make e entropy seen := by
  have hoverride : (start e entropy detected seen.recorded).override = ⟨true, seen.recorded⟩ :=
    Override.make_set seen.recorded {}
  rw [selectAmid, hoverride, Looks.amid_set]
  rfl

/-- The instruction is asked for where it is not there, and another thread sets it for a moment: the
record has no SSE4.2, and yet the instruction is in force. Or it is there at first, and another
thread takes it away before the kernel is looked for: the record has SSE4.2 and the automatic choice
is in force, and yet the hasher is not banded. -/
theorem selectAmid_incoherent :
    let hwcrc : Environment := ⟨some #[0x68, 0x77, 0x63, 0x72, 0x63], none⟩
    let s := (start hwcrc 5 .sse2 .none).selectAmid [.set .sse42] [.set .none]
    let s' := (start ⟨none, none⟩ 5 .sse2 .sse42).selectAmid [.set .sse42] [.set .none]
    (s.settings.requested = .instruction ∧ s.settings.effective = .instruction ∧
      s.capabilities = .none ∧ ¬ s.Coherent) ∧
    (s'.settings.effective = .auto ∧ s'.capabilities = .sse42 ∧ s'.hasher.banded = false ∧
      ¬ s'.Coherent) := by
  intro hwcrc s s'
  have hs : s = .make hwcrc 5 ⟨.none, .sse42, .none⟩ := selectAmid_start _ 5 .sse2 ⟨_, _, _⟩
  have hs' : s' = .make ⟨none, none⟩ 5 ⟨.sse42, .sse42, .none⟩ :=
    selectAmid_start _ 5 .sse2 ⟨_, _, _⟩
  rw [hs, hs', Selection.coherent_make_iff, Selection.coherent_make_iff]
  decide

end Session

end KeyDigest
