import KeyDigest.Proofs.Hasher.Dependence

/-!
# When hashers are equal

Hashers are compared by their name, their banding and the table that they refer to; what they
compute is not looked at. The comparison is sound because there are three constructors only: the
name tells how a key is digested, and a table holds the same offsets for everybody who refers to it.
Tables are compared as objects, so two tables with equal offsets make two hashers that are not
equal.

* `obtained_iff`: the hashers that can be obtained.
* `beq_iff_eq_of_obtained`: on these, the comparison is equality.

**Theorem (`equal_hashers_agree`).** Equality is an equivalence, and equal hashers have equal
digests and bands. Hashers on one kernel are equal only if they share their table, and hashers on
two kernels never are.
-/

namespace KeyDigest

open Sampling

/-- The reference to a table, where `made n` is what the `n`-th table that was made holds. -/
def TableRef.of (made : Nat → OffsetTable) : TableId → TableRef
  | .shared => .shared
  | .made n => ⟨.made n, made n⟩

@[simp] theorem TableRef.id_of (made : Nat → OffsetTable) (i : TableId) : (of made i).id = i := by
  cases i <;> rfl

namespace Hasher

/-- The hashers that there can be with the tables `made`: the portable one, and those of the bands
with any table. -/
inductive Obtained (made : Nat → OffsetTable) : Hasher → Prop
  | portable : Obtained made .portable
  | banded {i : TableId} {h : Hasher} : BandedOn (.of made i) h → Obtained made h

variable {made : Nat → OffsetTable} {a b : Hasher} {i j : TableId}

theorem obtained_iff : Obtained made a ↔ a = portable ∨
    ∃ k i, (k = .software ∨ k = .hardware) ∧ a = onKernel k (.of made i) := by
  constructor
  · rintro (_ | @⟨i, _, hbanded⟩)
    · exact .inl rfl
    · rcases hbanded.eq_onKernel with h | h
      · exact .inr ⟨.software, i, .inl rfl, h⟩
      · exact .inr ⟨.hardware, i, .inr rfl, h⟩
  · rintro (rfl | ⟨_, i, rfl | rfl, rfl⟩)
    · exact .portable
    · exact .banded .emulated
    · have hok : accelerated .sse42 (.of made i) = .ok (onKernel .hardware (.of made i)) :=
        accelerated_eq_ok (by decide) _
      exact .banded (.accelerated hok)

section Kernels

variable {k k' : Kernel} (hk : k = .software ∨ k = .hardware)
include hk

theorem name_ne_portable : k.name ≠ portable.name := by
  rcases hk with rfl | rfl <;> decide

theorem eq_of_name_eq (hk' : k' = .software ∨ k' = .hardware) (h : k.name = k'.name) : k = k' := by
  rcases hk with rfl | rfl <;> rcases hk' with rfl | rfl
  · rfl
  · exact absurd h (by decide)
  · exact absurd h (by decide)
  · rfl

end Kernels

theorem name_eq_of_banded (ha : Obtained made a) (hbanded : a.banded) : a.name = a.kernel.name := by
  rcases obtained_iff.1 ha with rfl | ⟨k, i, -, rfl⟩
  · cases hbanded
  · rfl

theorem beq_iff : a == b ↔ (a.name = b.name ∧ a.banded = b.banded) ∧ a.table.id = b.table.id := by
  change (a.name == b.name && a.banded == b.banded && a.table.id == b.table.id) = true ↔ _
  simp only [Bool.and_eq_true, beq_iff_eq]

/-- **On hashers that can be obtained the comparison is equality**: names tell the constructors
apart, and places tell the tables apart. -/
theorem beq_iff_eq_of_obtained (ha : Obtained made a) (hb : Obtained made b) : a == b ↔ a = b := by
  rw [beq_iff]
  constructor
  · rintro ⟨⟨hname, -⟩, hid⟩
    rcases obtained_iff.1 ha with rfl | ⟨k, i, hk, rfl⟩ <;>
      rcases obtained_iff.1 hb with rfl | ⟨k', j, hk', rfl⟩
    · rfl
    · exact absurd hname.symm (name_ne_portable hk')
    · exact absurd hname (name_ne_portable hk)
    · obtain rfl := eq_of_name_eq hk hk' hname
      obtain rfl : i = j := by simpa [onKernel] using hid
      rfl
  · rintro rfl
    exact ⟨⟨rfl, rfl⟩, rfl⟩

/-- **Equal hashers agree.** Whatever tables were made, with equal contents or not, the comparison
of the hashers that can be obtained with them is an equivalence, and equal ones give equal digests
and equal bands. Of the hashers of the bands, those on one kernel are equal just if they refer to
one table, and the one on the instruction is not equal to the one in software on the same table,
although they agree on all digests. -/
theorem equal_hashers_agree (made : Nat → OffsetTable) :
    Equivalence (fun a b : {h // Obtained made h} => a.1 == b.1) ∧
    (∀ a b, Obtained made a → Obtained made b → a == b →
      (∀ key, a.digest key = b.digest key) ∧ ∀ n, a.band? n = b.band? n) ∧
    (∀ a b, Obtained made a → Obtained made b → a.banded → b.banded →
      a.kernel.name = b.kernel.name → (a == b ↔ a.table.id = b.table.id)) ∧
    ∀ machine i h, accelerated machine (.of made i) = .ok h →
      ¬ h == emulated (.of made i) ∧ ∀ key, h.digest key = (emulated (.of made i)).digest key := by
  refine ⟨⟨fun a => ?_, fun {a b} h => ?_, fun {a b c} hab hbc => ?_⟩, ?_, ?_, ?_⟩
  · exact (beq_iff_eq_of_obtained a.2 a.2).2 rfl
  · rw [beq_iff_eq_of_obtained a.2 b.2] at h
    exact (beq_iff_eq_of_obtained b.2 a.2).2 h.symm
  · rw [beq_iff_eq_of_obtained a.2 b.2] at hab
    rw [beq_iff_eq_of_obtained b.2 c.2] at hbc
    exact (beq_iff_eq_of_obtained a.2 c.2).2 (hab.trans hbc)
  · intro a b ha hb h
    obtain rfl := (beq_iff_eq_of_obtained ha hb).1 h
    exact ⟨fun _ => rfl, fun _ => rfl⟩
  · intro a b ha hb habanded hbbanded hkernel
    have hname : a.name = b.name := by
      rw [name_eq_of_banded ha habanded, name_eq_of_banded hb hbbanded, hkernel]
    rw [beq_iff, and_iff_right ⟨hname, habanded.trans hbbanded.symm⟩]
  · intro machine i h hok
    have hbanded : BandedOn (.of made i) h := .accelerated hok
    refine ⟨fun hbeq => ?_, fun key => ?_⟩
    · obtain ⟨-, rfl⟩ := accelerated_eq_ok_iff.1 hok
      exact absurd (beq_iff.1 hbeq).1.1 (by decide : Kernel.hardware.name ≠ Kernel.software.name)
    · rw [hbanded.digest_eq, BandedOn.emulated.digest_eq]

/-- Two tables that were made alike, a hasher of the bands on each, and one on the instruction. -/
theorem equal_hashers_agree_two_tables :
    let made : Nat → OffsetTable := fun _ => .zero
    let a := emulated (.of made (.made 0))
    let b := emulated (.of made (.made 1))
    let c := onKernel .hardware (.of made (.made 0))
    Obtained made a ∧ Obtained made b ∧ a == a ∧ a.digest #[7] = a.digest #[7] ∧
    a.banded ∧ b.banded ∧ a.kernel.name = b.kernel.name ∧ ¬ a == b ∧
    accelerated .sse42 (.of made (.made 0)) = .ok c ∧ ¬ c == a ∧
    c.digest #[1, 2, 3, 4] = a.digest #[1, 2, 3, 4] := by
  intro made a b c
  have hok : accelerated .sse42 (.of made (.made 0)) = .ok c := accelerated_eq_ok (by decide) _
  have ha : Obtained made a := .banded .emulated
  have hb : Obtained made b := .banded .emulated
  obtain ⟨hequivalence, hagree, htables, hkernels⟩ := equal_hashers_agree made
  have haa : a == a := hequivalence.refl ⟨a, ha⟩
  have hab : ¬ a == b := by
    rw [htables a b ha hb rfl rfl rfl]
    decide
  exact ⟨ha, hb, haa, (hagree a a ha ha haa).1 _, rfl, rfl, rfl, hab, hok,
    (hkernels .sse42 _ c hok).1, (hkernels .sse42 _ c hok).2 _⟩

end Hasher

end KeyDigest
