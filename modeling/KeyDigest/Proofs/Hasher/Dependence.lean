import KeyDigest.Proofs.Banded.Positions
import KeyDigest.Proofs.Hasher.Kernels
import KeyDigest.Proofs.Key.Words

/-!
# What a digest depends on

A recipe sees the key through its reads only. So a run on another key of the same length goes the
same way and ends with the same result, if that key has the same bytes in the windows that the
first run reads. The offset table is seen by the recipe of long keys only, and of the table just the
bucket for the size of a chunk.

* `run_eq_of_agreeAt`: two runs that read the same.
* `recipe_eq_of_lt`, `recipe_eq_of_longOffsets_eq`: two recipes with different tables.
* `Lookup3.windows_recipe`: the windows of the portable digest.

**Theorem (`digests_depend_on_reads`).** When two hashers give keys of one length the same digest.
-/

namespace KeyDigest

open Sampling

variable {key key' : Key}

/-! ## Runs that read the same -/

/-- The keys have the same `width` bytes from `pos` on. -/
def Key.AgreeAt (key key' : Key) (width pos : Nat) : Prop :=
  ∀ i < width, key'[pos + i]? = key[pos + i]?

theorem Step.answer_eq_of_agreeAt (hsize : key'.size = key.size) (kernel : Kernel) {s : Step}
    (h : ∀ w, s.window? = some w → key.AgreeAt key' w.2 w.1.toNat) :
    s.answer kernel key' = s.answer kernel key := by
  cases s with
  | octet pos =>
    have hbyte : key'[pos.toNat]? = key[pos.toNat]? := h (pos, 1) rfl 0 Nat.one_pos
    exact congrArg (·.getD 0) hbyte
  | word32 pos => exact Key.word32At_congr (by rw [hsize]) (h (pos, 4) rfl)
  | word64 pos => exact Key.wordAt_congr (by rw [hsize]) (h (pos, 8) rfl)
  | _ => rfl

/-- **A run sees what it reads and nothing else.** -/
theorem Recipe.run_eq_of_agreeAt {α : Type} {kernel : Kernel} (hsize : key'.size = key.size)
    {r : Recipe α}
    (h : ∀ w ∈ (r.trace kernel key).filterMap Step.window?, key.AgreeAt key' w.2 w.1.toNat) :
    r.run kernel key' = r.run kernel key := by
  -- The first step has the same answer on both keys, so both runs go on with the same recipe.
  induction r with
  | done a => rfl
  | step s next ih =>
    have hanswer : s.answer kernel key' = s.answer kernel key :=
      Step.answer_eq_of_agreeAt hsize kernel fun w hw =>
        h w (List.mem_filterMap.2 ⟨s, List.mem_cons_self .., hw⟩)
    rw [Recipe.run, Recipe.run, hanswer]
    apply ih
    intro w hw
    obtain ⟨s', hs', hread⟩ := List.mem_filterMap.1 hw
    exact h w (List.mem_filterMap.2 ⟨s', List.mem_cons_of_mem s hs', hread⟩)

theorem Recipe.run_eq_of_windows {α : Type} {kernel : Kernel} (hsize : key'.size = key.size)
    {r : Recipe α} {width : Nat} {qs : List Nat}
    (hwindows : (r.trace kernel key).filterMap Step.window? = qs.map fun q => (.ofNat q, width))
    (hfits : ∀ q ∈ qs, q < 2 ^ 64) (h : ∀ q ∈ qs, key.AgreeAt key' width q) :
    r.run kernel key' = r.run kernel key := by
  apply Recipe.run_eq_of_agreeAt hsize
  rw [hwindows]
  intro w hw
  obtain ⟨q, hq, rfl⟩ := List.mem_map.1 hw
  rw [Recipe.toNat_ofNat (hfits q hq)]
  exact h q hq

/-! ## The banded digest -/

namespace Banded

variable {t t' : OffsetTable}

theorem recipe_eq_of_lt {n : UInt64} (h : n.toNat < 128) (t t' : OffsetTable) :
    recipe n t = recipe n t' := by
  rw [recipe, recipe]
  cases hband : Band.ofLength? n.toNat with
  | none => rfl
  | some band =>
    cases band with
    | long => exact absurd (Band.ofLength?_eq_long_iff.1 hband) (by omega)
    | _ => rfl

theorem recipe_eq_of_longOffsets_eq (hkey : key.size < 2 ^ 64)
    (h : longOffsets t key.size = longOffsets t' key.size) :
    recipe key.length64 t = recipe key.length64 t' := by
  have hlong : long key.length64 t = long key.length64 t' := by
    rw [longOffsets, longOffsets, ← length64_div_chunks hkey] at h
    rw [long, long, h]
  rw [recipe, recipe, hlong]

/-- The positions of the eighteen words that are read in a key of `n` bytes with offsets `o`. -/
def readPositions (n : Nat) (o : UInt32 × UInt32) : List Nat :=
  (requested n o).map (min · (n - 8)) ++ [0, n - 8]

theorem le_of_mem_readPositions {n : Nat} {o : UInt32 × UInt32} {q : Nat}
    (hq : q ∈ readPositions n o) : q ≤ n := by
  rcases List.mem_append.1 hq with hsample | hend
  · obtain ⟨q', -, rfl⟩ := List.mem_map.1 hsample
    omega
  · rcases List.mem_pair.1 hend with rfl | rfl <;> omega

theorem digest_eq_of_agreeAt (hsize : key'.size = key.size) (hlong : 128 ≤ key.size)
    (hkey : key.size < 2 ^ 64) (kernel : Kernel)
    (hoffsets : longOffsets t key.size = longOffsets t' key.size)
    (h : ∀ q ∈ readPositions key.size (longOffsets t key.size), key.AgreeAt key' 8 q) :
    digest kernel t key = digest kernel t' key' := by
  have hlength : key'.length64 = key.length64 := congrArg Nat.toUInt64 hsize
  rw [digest_eq_run (by omega), digest_eq_run (by omega), hlength,
    ← recipe_eq_of_longOffsets_eq hkey hoffsets]
  exact (Recipe.run_eq_of_windows hsize (windows_recipe hlong hkey t)
    (fun q hq => (le_of_mem_readPositions hq).trans_lt hkey) h).symm

/-- Without a word to read, the banded digest is the portable one. -/
theorem digest_eq_portable (htiny : key.size < 4) (kernel : Kernel) (t : OffsetTable) :
    digest kernel t key = Lookup3.digest key := by
  by_cases hpos : 0 < key.size
  · have hband : Band.ofLength? key.size = some .tiny := Band.ofLength?_eq_tiny_iff.2 ⟨hpos, htiny⟩
    rw [Lookup3.digest_eq_formula (by omega), if_neg (by omega), if_pos hpos,
      digest_eq_formula hpos (by omega), formula, hband]
  · have hempty : key = #[] := Array.size_eq_zero_iff.1 (by omega)
    subst hempty
    rfl

end Banded

/-! ## The portable digest -/

namespace Lookup3

open Recipe

/-- The positions of the four words that are read in a key of `n` bytes. -/
def readPositions (n : Nat) : List Nat := [0, n - 4, n / 2 - 2, n / 4 - 1]

theorem windows_recipe (hfour : 4 ≤ key.size) (hkey : key.size < 2 ^ 64) (kernel : Kernel) :
    ((recipe key.length64).trace kernel key).filterMap Step.window? =
      (readPositions key.size).map fun q => (.ofNat q, 4) := by
  rw [recipe, if_pos ((four_le_length64_iff hkey).2 hfour), words, length64_half hkey,
    length64_quarter hkey, ← seen]
  refine seen_bind_of_run? (run?_word32 (p := 0) hkey (by omega)) rfl ?_
  refine seen_bind_of_run? (run?_sub (b := 4) hfour hkey) rfl ?_
  refine seen_bind_of_run? (run?_word32 hkey (by omega)) rfl ?_
  refine seen_bind_of_run? (run?_sub (b := 2) (by omega) (by omega)) rfl ?_
  refine seen_bind_of_run? (run?_word32 hkey (by omega)) rfl ?_
  refine seen_bind_of_run? (run?_sub (b := 1) (by omega) (by omega)) rfl ?_
  refine seen_bind_of_run? (run?_word32 hkey (by omega)) rfl ?_
  rfl

theorem digest_eq_of_agreeAt (hsize : key'.size = key.size) (hfour : 4 ≤ key.size)
    (hkey : key.size < 2 ^ 64) (h : ∀ q ∈ readPositions key.size, key.AgreeAt key' 4 q) :
    digest key = digest key' := by
  have hlength : key'.length64 = key.length64 := congrArg Nat.toUInt64 hsize
  have hfits : ∀ q ∈ readPositions key.size, q < 2 ^ 64 := by
    simp only [readPositions, List.forall_mem_cons]
    exact ⟨by omega, by omega, by omega, by omega, by simp⟩
  rw [digest, digest, hlength]
  exact (run_eq_of_windows hsize (windows_recipe hfour hkey .software) hfits h).symm

end Lookup3

/-! ## Hashers -/

namespace Hasher

open Banded

/-- The hashers of the bands with a table: the one in software, and the one on the instruction of a
machine that has it. -/
inductive BandedOn (table : TableRef) : Hasher → Prop
  | emulated : BandedOn table (emulated table)
  | accelerated {machine : Capabilities} {h : Hasher} :
      Hasher.accelerated machine table = .ok h → BandedOn table h

theorem BandedOn.eq_onKernel {table : TableRef} {h : Hasher} (hbanded : BandedOn table h) :
    h = onKernel .software table ∨ h = onKernel .hardware table := by
  cases hbanded with
  | emulated => exact .inl rfl
  | accelerated hok => exact .inr (accelerated_eq_ok_iff.1 hok).2

theorem BandedOn.digest_eq {table : TableRef} {h : Hasher} (hbanded : BandedOn table h)
    (key : Key) : h.digest key = Banded.digest .software table.table key := by
  rcases hbanded.eq_onKernel with rfl | rfl
  · exact digest_onKernel .software table key
  · exact digest_onKernel_eq_emulated Kernel.hardware_documented table key

/-- **What a digest may depend on.** Two hashers on keys of one length give the same digest:
any two, if the keys are equal and have less than four bytes; two of the bands with any two tables,
if the keys are equal and have less than 128 bytes; two of the bands on longer keys, if the tables
agree in the bucket for the size of a chunk, clamped to 32 bits, and the keys agree in the eighteen
words that are read; the portable one, if the keys agree in the four words that it reads. -/
theorem digests_depend_on_reads (r r' : TableRef) (hsize : key'.size = key.size)
    (hkey : key.size < 2 ^ 64) :
    (key' = key → key.size < 4 →
      ∀ h, (h = portable ∨ BandedOn r h ∨ BandedOn r' h) →
      ∀ h', (h' = portable ∨ BandedOn r h' ∨ BandedOn r' h') → h.digest key = h'.digest key') ∧
    (key' = key → key.size < 128 →
      ∀ h h', BandedOn r h → BandedOn r' h' → h.digest key = h'.digest key') ∧
    (128 ≤ key.size →
      let bucket := ((min (key.size / 16) (2 ^ 32 - 1)).log2).toUInt32
      (∀ kernel, ((Banded.recipe key.length64 r.table).trace kernel key).filterMap Step.window? =
        (readPositions key.size (r.table.offsets bucket)).map fun q => (.ofNat q, 8)) ∧
      (readPositions key.size (r.table.offsets bucket)).length = 18 ∧
      (r.table.offsets bucket = r'.table.offsets bucket →
        (∀ q ∈ readPositions key.size (r.table.offsets bucket), key.AgreeAt key' 8 q) →
        ∀ h h', BandedOn r h → BandedOn r' h' → h.digest key = h'.digest key')) ∧
    (4 ≤ key.size →
      (∀ q ∈ [0, key.size - 4, key.size / 2 - 2, key.size / 4 - 1], key.AgreeAt key' 4 q) →
      portable.digest key = portable.digest key') := by
  refine ⟨?_, ?_, ?_, ?_⟩
  · rintro rfl htiny h hh h' hh'
    have hportable {h : Hasher} (hh : h = portable ∨ BandedOn r h ∨ BandedOn r' h) :
        h.digest key' = Lookup3.digest key' := by
      rcases hh with rfl | hbanded | hbanded
      · exact digest_portable key'
      · rw [hbanded.digest_eq, digest_eq_portable htiny]
      · rw [hbanded.digest_eq, digest_eq_portable htiny]
    rw [hportable hh, hportable hh']
  · rintro rfl hshort h h' hh hh'
    have hrecipe := recipe_eq_of_lt (n := key'.length64)
      (by rwa [Key.toNat_length64 hkey]) r.table r'.table
    rw [hh.digest_eq, hh'.digest_eq, Banded.digest, Banded.digest, hrecipe]
  · intro hlong bucket
    have hoffsets (t : OffsetTable) : longOffsets t key.size = t.offsets bucket := by
      rw [longOffsets, bucket_ofNat (by omega) (by omega)]
      rfl
    refine ⟨fun kernel => ?_, rfl, fun htables hagree h h' hh hh' => ?_⟩
    · rw [← hoffsets]
      exact Banded.windows_recipe hlong hkey r.table
    · rw [← hoffsets, ← hoffsets] at htables
      rw [← hoffsets] at hagree
      rw [hh.digest_eq, hh'.digest_eq]
      exact Banded.digest_eq_of_agreeAt hsize hlong hkey .software htables hagree
  · intro hfour hagree
    rw [digest_portable, digest_portable]
    exact Lookup3.digest_eq_of_agreeAt hsize hfour hkey hagree

/-- Byte 8 of 200 is in no sample of a table that begins each chunk of twelve bytes, and bucket 5 is
not for these chunks. Byte 12 of twenty is in none of the four words. -/
theorem digests_depend_on_reads_200 :
    let r : TableRef := ⟨.made 0, .zero⟩
    let r' : TableRef := ⟨.made 1, OffsetTable.zero.setBucket 32 5 7 9⟩
    let key (n : Nat) : Key := Array.replicate n 0
    BandedOn r (emulated r) ∧ BandedOn r' (onKernel .hardware r') ∧ r.table ≠ r'.table ∧
    portable.digest (key 3) = (onKernel .hardware r').digest (key 3) ∧
    (emulated r).digest (key 100) = (onKernel .hardware r').digest (key 100) ∧
    r.table.offsets 3 = r'.table.offsets 3 ∧
    (∀ q ∈ readPositions 200 (r.table.offsets 3),
      (key 200).AgreeAt ((key 200).setIfInBounds 8 1) 8 q) ∧
    (emulated r).digest (key 200) =
      (onKernel .hardware r').digest ((key 200).setIfInBounds 8 1) ∧
    (∀ q ∈ [0, 16, 8, 4], (key 20).AgreeAt ((key 20).setIfInBounds 12 1) 4 q) ∧
    portable.digest (key 20) = portable.digest ((key 20).setIfInBounds 12 1) := by
  intro r r' key
  have hsize (n : Nat) : (key n).size = n := Array.size_replicate
  have hsize' (n p : Nat) : ((key n).setIfInBounds p 1).size = (key n).size :=
    Array.size_setIfInBounds
  have hagree {n p width q : Nat} (hout : ∀ i < width, q + i ≠ p) :
      (key n).AgreeAt ((key n).setIfInBounds p 1) width q :=
    fun i hi => Array.getElem?_setIfInBounds_ne (hout i hi).symm
  have hemulated : BandedOn r (emulated r) := .emulated
  have hsse42 : Capabilities.sse42.hasInstruction := by decide
  have hhardware : BandedOn r' (onKernel .hardware r') := .accelerated (accelerated_eq_ok hsse42 r')
  have htables : r.table.offsets 3 = r'.table.offsets 3 := by decide +kernel
  have hlong : ∀ q ∈ readPositions 200 (r.table.offsets 3),
      (key 200).AgreeAt ((key 200).setIfInBounds 8 1) 8 q := by
    have hout : ∀ q ∈ readPositions 200 (r.table.offsets 3), ∀ i < 8, q + i ≠ 8 := by
      decide +kernel
    exact fun q hq => hagree (hout q hq)
  have hfour : ∀ q ∈ [0, 16, 8, 4], (key 20).AgreeAt ((key 20).setIfInBounds 12 1) 4 q := by
    have hout : ∀ q ∈ [0, 16, 8, 4], ∀ i < 4, q + i ≠ 12 := by decide
    exact fun q hq => hagree (hout q hq)
  have hfits {n : Nat} (hn : n ≤ 200) : (key n).size < 2 ^ 64 := by rw [hsize]; omega
  obtain ⟨h3, -⟩ := digests_depend_on_reads r r' (rfl : (key 3).size = _) (hfits (by decide))
  obtain ⟨-, h100, -⟩ := digests_depend_on_reads r r' (rfl : (key 100).size = _) (hfits (by decide))
  obtain ⟨-, -, h200, -⟩ := digests_depend_on_reads r r' (hsize' 200 8) (hfits (by decide))
  obtain ⟨-, -, -, h20⟩ := digests_depend_on_reads r r' (hsize' 20 12) (hfits (by decide))
  rw [hsize] at h3 h100 h200 h20
  exact ⟨hemulated, hhardware, by decide +kernel,
    h3 rfl (by decide) _ (Or.inl rfl) _ (Or.inr (Or.inr hhardware)),
    h100 rfl (by decide) _ _ hemulated hhardware, htables, hlong,
    (h200 (by decide)).2.2 htables hlong _ _ hemulated hhardware, hfour,
    h20 (by decide) hfour⟩

end Hasher

end KeyDigest
