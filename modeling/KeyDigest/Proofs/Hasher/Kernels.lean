import KeyDigest.Proofs.Crc.Instruction
import KeyDigest.Proofs.Recipe.Runs
import KeyDigest.Hasher

/-!
# Digests do not depend on the kernel

A banded digest reaches the key and the register through the steps of its recipe only. Kernels that
agree answer all steps alike, so they make the same folds in the same order and end with the same
digest. The instruction as documented agrees with the byte table, hence the accelerated hasher and
the emulated one are one function.
-/

namespace KeyDigest

open Sampling

namespace Banded

variable {k k' : Kernel} (h : k.Agree k') (t : OffsetTable) (key : Key)
include h

theorem digest_congr : digest k t key = digest k' t key := by
  unfold digest
  split
  · rfl
  · exact Recipe.run_congr h key (recipe key.length64 t)

theorem folds_congr : folds k t key = folds k' t key := by
  unfold folds
  split
  · rfl
  · rw [Recipe.folds, Recipe.folds, Recipe.trace_congr h]

end Banded

namespace Hasher

theorem digest_onKernel_eq_emulated {k : Kernel} (h : k.Documented) (table : TableRef) (key : Key) :
    (onKernel k table).digest key = (emulated table).digest key :=
  Banded.digest_congr (h.agree Kernel.software_documented) table.table key

theorem accelerated_eq_ok {machine : Capabilities} (h : machine.hasInstruction) (table : TableRef) :
    accelerated machine table = .ok (onKernel .hardware table) := by
  rw [accelerated, Kernel.hardware?, if_pos h]

theorem accelerated_eq_ok_iff {machine : Capabilities} {table : TableRef} {h : Hasher} :
    accelerated machine table = .ok h ↔
      machine.hasInstruction ∧ h = onKernel .hardware table := by
  constructor
  · intro hok
    by_cases hmachine : machine.hasInstruction
    · rw [accelerated_eq_ok hmachine] at hok
      exact ⟨hmachine, (Except.ok.inj hok).symm⟩
    · rw [accelerated, Kernel.hardware?, if_neg hmachine] at hok
      cases hok
  · rintro ⟨hmachine, rfl⟩
    exact accelerated_eq_ok hmachine table

/-- **One digest on every kernel.** The banded hasher on any kernel that folds as documented, and on
the instruction in particular, has the digests of the hasher in software. Kernels that agree on all
arguments give equal digests by equal sequences of folds. -/
theorem digest_kernel_independent :
    (∀ k : Kernel, k.Documented → ∀ table key,
      (onKernel k table).digest key = (emulated table).digest key) ∧
    (∀ machine : Capabilities, machine.hasInstruction → ∀ table,
      ∃ h, accelerated machine table = .ok h ∧ ∀ key,
        h.digest key = (emulated table).digest key ∧
        (emulated table).digest key = Banded.digest .software table.table key) ∧
    ∀ k k' : Kernel, (∀ r w, k.fold32 r w = k'.fold32 r w) → (∀ r w, k.fold64 r w = k'.fold64 r w) →
      ∀ t key, Banded.digest k t key = Banded.digest k' t key ∧
        Banded.folds k t key = Banded.folds k' t key := by
  refine ⟨?_, ?_, ?_⟩
  · intro k h table key
    exact digest_onKernel_eq_emulated h table key
  · intro machine h table
    refine ⟨onKernel .hardware table, accelerated_eq_ok h table, fun key => ⟨?_, ?_⟩⟩
    · exact digest_onKernel_eq_emulated Kernel.hardware_documented table key
    · exact digest_onKernel .software table key
  · intro k k' h32 h64 t key
    have h : k.Agree k' := ⟨h32, h64⟩
    exact ⟨Banded.digest_congr h t key, Banded.folds_congr h t key⟩

/-- A machine with SSE4.2 has the instruction, so all of this applies to it. -/
theorem digest_kernel_independent_sse42 :
    Kernel.hardware.Documented ∧ Capabilities.sse42.hasInstruction ∧
    (∀ r w, Kernel.hardware.fold32 r w = Kernel.software.fold32 r w) ∧
    (∀ r w, Kernel.hardware.fold64 r w = Kernel.software.fold64 r w) ∧
    (onKernel .hardware .shared).digest #[1, 2, 3, 4] = (emulated .shared).digest #[1, 2, 3, 4] ∧
    (∃ h, accelerated .sse42 .shared = .ok h ∧
      h.digest #[1, 2, 3, 4] = (emulated .shared).digest #[1, 2, 3, 4]) ∧
    Banded.folds .hardware .zero #[1, 2, 3, 4] = Banded.folds .software .zero #[1, 2, 3, 4] := by
  have hagree := Kernel.hardware_agree_software
  have hsse42 : Capabilities.sse42.hasInstruction := by decide
  obtain ⟨hdocumented, hmachine, hkernels⟩ := digest_kernel_independent
  obtain ⟨h, hok, hdigest⟩ := hmachine .sse42 hsse42 .shared
  exact ⟨Kernel.hardware_documented, hsse42, hagree.fold32, hagree.fold64,
    hdocumented .hardware Kernel.hardware_documented .shared _, ⟨h, hok, (hdigest _).1⟩,
    (hkernels .hardware .software hagree.fold32 hagree.fold64 .zero _).2⟩

end Hasher

end KeyDigest
