import KeyDigest.Proofs.Banded.Formula
import KeyDigest.Hasher

/-!
# Digests read inside the key only

That a read outside the key gives zero is never part of a digest. On every key whose length fits
into 64 bits, every position of every recipe is computed without leaving that range, every window
lies in the key, and the recipe of the bands is never used on the empty key, whatever offsets the
table holds.
-/

namespace KeyDigest.Hasher

open Sampling

theorem digest?_onKernel {key : Key} (hkey : key.size < 2 ^ 64) (kernel : Kernel)
    (table : TableRef) :
    (onKernel kernel table).digest? key = some ((onKernel kernel table).digest key) :=
  Banded.digest?_eq hkey table.table

theorem digest?_portable {key : Key} (hkey : key.size < 2 ^ 64) :
    portable.digest? key = some (portable.digest key) := by
  unfold digest? digest
  split
  · rfl
  · exact Recipe.run?_eq_some_run (Lookup3.run?_recipe hkey)

/-- **Zero fill is no part of a digest.** Every step of the banded digest and of the portable one is
exact and inside the key. The runs that fail at the first step that is not, or at a recipe used
against its promise, do not fail, and they end with the same digests. -/
theorem digests_stay_inside (key : Key) (hkey : key.size < 2 ^ 64) :
    (0 < key.size → ∀ kernel t, ∀ s ∈ (Banded.recipe key.length64 t).trace kernel key,
      s.Inside key) ∧
    (∀ s ∈ (Lookup3.recipe key.length64).trace .software key, s.Inside key) ∧
    (∀ kernel t, Banded.digest? kernel t key = some (Banded.digest kernel t key)) ∧
    Lookup3.digest? key = some (Lookup3.digest key) ∧
    ∀ h : Hasher, h = portable ∨ (∃ kernel table, h = onKernel kernel table) →
      h.digest? key = some (h.digest key) := by
  refine ⟨?_, ?_, ?_, Lookup3.digest?_eq hkey, ?_⟩
  · intro hpos kernel t
    apply Recipe.isSome_run?_iff.1
    rw [Banded.run?_recipe hpos hkey, Option.isSome_some]
  · apply Recipe.isSome_run?_iff.1
    rw [Lookup3.run?_recipe hkey, Option.isSome_some]
  · intro kernel t
    exact Banded.digest?_eq hkey t
  · intro h hkind
    rcases hkind with rfl | ⟨kernel, table, rfl⟩
    · exact digest?_portable hkey
    · exact digest?_onKernel hkey kernel table

/-- The largest offsets that a table can hold are clamped to the last word of the key. -/
theorem digests_stay_inside_largest_offsets :
    (Array.replicate 200 7 : Key).size < 2 ^ 64 ∧ 0 < (Array.replicate 200 7 : Key).size ∧
    (∀ s ∈ (Banded.recipe (Key.length64 (Array.replicate 200 7))
        ⟨Vector.replicate bucketCount (0xFFFFFFFF, 0xFFFFFFFF)⟩).trace .software
          (Array.replicate 200 7), s.Inside (Array.replicate 200 7)) ∧
    (emulated .shared).digest? (Array.replicate 200 7) =
      some ((emulated .shared).digest (Array.replicate 200 7)) := by
  have hsize : (Array.replicate 200 7 : Key).size = 200 := Array.size_replicate
  have hkey : (Array.replicate 200 7 : Key).size < 2 ^ 64 := by omega
  have hpos : 0 < (Array.replicate 200 7 : Key).size := by omega
  obtain ⟨hbanded, -, -, -, hdigest⟩ := digests_stay_inside (Array.replicate 200 7) hkey
  exact ⟨hkey, hpos, hbanded hpos .software _, hdigest _ (Or.inr ⟨.software, .shared, rfl⟩)⟩

end KeyDigest.Hasher
