import KeyDigest.Proofs.Banded.Positions

/-!
# Which chunk a sample comes from

Bucket `i` serves the chunks of `2 ^ i` up to `2 ^ (i + 1)` bytes with offsets below `2 ^ (i + 1)`,
a range that is wider than every one of these chunks. So an offset can lead out of its chunk and
into the next one, but no further. Only a chunk of 4 GiB or more, which no offset of 32 bits can
leave, has its sample with every table.

**Theorem (`samples_in_own_chunks_iff`).** When the samples of the first seven pairs begin in their
own chunks.
-/

namespace KeyDigest.Banded

open Recipe Sampling

variable {kernel : Kernel} {key : Key} {t : OffsetTable} {n : Nat}

/-! ## Where the samples begin -/

/-- In each of the first seven pairs, the two samples are the reads that begin within `w` bytes from
the beginning of the first and of the second chunk. -/
def SamplesWithin (w : Nat) (kernel : Kernel) (t : OffsetTable) (key : Key) : Prop :=
  let c := key.size / 16
  let reads := ((recipe key.length64 t).trace kernel key).filterMap Step.window?
  ∀ p < 7, ∃ q1 q2 : UInt64, reads[2 * p]? = some (q1, 8) ∧ reads[2 * p + 1]? = some (q2, 8) ∧
    (2 * p * c ≤ q1.toNat ∧ q1.toNat < 2 * p * c + w) ∧
    (2 * p * c + c ≤ q2.toNat ∧ q2.toNat < 2 * p * c + c + w)

/-- In each of the first seven pairs, both samples begin in their own chunks. -/
def InOwnChunks (kernel : Kernel) (t : OffsetTable) (key : Key) : Prop :=
  SamplesWithin (key.size / 16) kernel t key

theorem getElem?_requested (n : Nat) (o : UInt32 × UInt32) {p : Nat} (hp : p < 8) :
    (requested n o)[2 * p]? = some (requestedPositions n o p).1 ∧
      (requested n o)[2 * p + 1]? = some (requestedPositions n o p).2 := by
  interval_cases p <;> exact ⟨rfl, rfl⟩

section

variable (ht : t.Built) (hlong : 128 ≤ key.size) (hkey : key.size < 2 ^ 64)
include ht hlong hkey

/-- The samples of the first seven pairs are read where they are asked for. -/
theorem windows_pair (kernel : Kernel) {p : Nat} (hp : p < 7) :
    (((recipe key.length64 t).trace kernel key).filterMap Step.window?)[2 * p]? =
        some (.ofNat (2 * p * (key.size / 16) + (longOffsets t key.size).1.toNat), 8) ∧
      (((recipe key.length64 t).trace kernel key).filterMap Step.window?)[2 * p + 1]? =
        some (.ofNat (2 * p * (key.size / 16) + key.size / 16 +
          (longOffsets t key.size).2.toNat), 8) := by
  obtain ⟨h1, h2⟩ := longOffsets_lt hlong hkey ht
  have hfst := requestedPositions_fst_le hlong h1 hp
  have hsnd := requestedPositions_snd_le hlong h2 (p := p) (by omega)
  obtain ⟨hget1, hget2⟩ :=
    getElem?_requested key.size (longOffsets t key.size) (p := p) (by omega)
  have hread {i q : Nat} (hget : (requested key.size (longOffsets t key.size))[i]? = some q)
      (hq : q ≤ key.size - 8) :
      (((recipe key.length64 t).trace kernel key).filterMap Step.window?)[i]? =
        some (.ofNat q, 8) := by
    obtain ⟨hi, -⟩ := List.getElem?_eq_some_iff.1 hget
    rw [windows_recipe hlong hkey, List.getElem?_map,
      List.getElem?_append_left (by rwa [List.length_map]), List.getElem?_map, hget,
      Option.map_some, Option.map_some, Nat.min_eq_left hq]
  have hpair : requestedPositions key.size (longOffsets t key.size) p =
      (2 * p * (key.size / 16) + (longOffsets t key.size).1.toNat,
        2 * p * (key.size / 16) + key.size / 16 + (longOffsets t key.size).2.toNat) := by
    rw [requestedPositions, if_pos hp]
  rw [hpair] at hfst hsnd hget1 hget2
  exact ⟨hread hget1 hfst, hread hget2 hsnd⟩

theorem samplesWithin_iff (w : Nat) :
    SamplesWithin w kernel t key ↔
      (longOffsets t key.size).1.toNat < w ∧ (longOffsets t key.size).2.toNat < w := by
  obtain ⟨h1, h2⟩ := longOffsets_lt hlong hkey ht
  constructor
  · intro h
    obtain ⟨q1, q2, hq1, hq2, hin1, hin2⟩ := h 0 (by decide)
    obtain ⟨hget1, hget2⟩ := windows_pair ht hlong hkey kernel (p := 0) (by decide)
    obtain ⟨rfl, -⟩ := Prod.mk.inj (Option.some.inj (hq1.symm.trans hget1))
    obtain ⟨rfl, -⟩ := Prod.mk.inj (Option.some.inj (hq2.symm.trans hget2))
    rw [toNat_ofNat (by omega)] at hin1 hin2
    omega
  · rintro ⟨hw1, hw2⟩ p hp
    have hbase : 2 * p * (key.size / 16) ≤ 12 * (key.size / 16) :=
      Nat.mul_le_mul_right _ (by omega)
    obtain ⟨hget1, hget2⟩ := windows_pair ht hlong hkey kernel hp
    refine ⟨_, _, hget1, hget2, ?_⟩
    rw [toNat_ofNat (by omega), toNat_ofNat (by omega)]
    omega

end

/-- For chunks of less than 4 GiB there is a table whose first offset leads out of them. -/
theorem exists_le_longOffsets (hlong : 128 ≤ n) (hn : n < 2 ^ 64) (hchunk : n / 16 < 2 ^ 32) :
    ∃ t : OffsetTable, t.Built ∧ n / 16 ≤ (longOffsets t n).1.toNat := by
  obtain ⟨t, ht, h1, -⟩ := exists_longOffsets_eq hlong hn (n / 16) 0
    (lt_two_pow_bucketIndex hchunk) (Nat.two_pow_pos _)
  exact ⟨t, ht, h1.ge⟩

/-- **When samples come from their own chunks.** In a key of `n` bytes, with every table that can be
built, the samples of the first seven pairs begin in their own chunk or the next one, and they all
begin in their own chunk exactly if both offsets are below the size of a chunk. That is so with
every table exactly if the size of a chunk does not fit into 32 bits. -/
theorem samples_in_own_chunks_iff (kernel : Kernel) (hlong : 128 ≤ n) (hn : n < 2 ^ 64) :
    (∀ (t : OffsetTable) (key : Key), t.Built → key.size = n →
      SamplesWithin (2 * (n / 16)) kernel t key ∧
      (InOwnChunks kernel t key ↔
        (longOffsets t n).1.toNat < n / 16 ∧ (longOffsets t n).2.toNat < n / 16)) ∧
    ((∀ (t : OffsetTable) (key : Key), t.Built → key.size = n → InOwnChunks kernel t key) ↔
      2 ^ 32 ≤ n / 16) := by
  refine ⟨?_, ?_⟩
  · rintro t key ht rfl
    exact ⟨(samplesWithin_iff ht hlong hn _).2 (longOffsets_lt hlong hn ht),
      samplesWithin_iff ht hlong hn _⟩
  · constructor
    · intro h
      by_contra hchunk
      obtain ⟨t, ht, hlarge⟩ := exists_le_longOffsets hlong hn (Nat.lt_of_not_le hchunk)
      have hsize : (Array.replicate n 0 : Key).size = n := Array.size_replicate
      have hown := h t (Array.replicate n 0) ht hsize
      rw [InOwnChunks, samplesWithin_iff ht (by omega) (by omega), hsize] at hown
      omega
    · rintro hchunk t key ht rfl
      have h1 := (longOffsets t key.size).1.toNat_lt
      have h2 := (longOffsets t key.size).2.toNat_lt
      rw [InOwnChunks, samplesWithin_iff ht hlong hn]
      omega

/-- Without offsets the samples begin with their chunks. -/
theorem samples_in_own_chunks_iff_zero :
    (128 : Nat) ≤ 128 ∧ (128 : Nat) < 2 ^ 64 ∧ OffsetTable.zero.Built ∧
    (Array.replicate 128 0 : Key).size = 128 ∧
    InOwnChunks .software .zero (Array.replicate 128 0) ∧
    ¬ ∀ (t : OffsetTable) (key : Key), t.Built → key.size = 128 →
      InOwnChunks .software t key := by
  have hsize : (Array.replicate 128 0 : Key).size = 128 := Array.size_replicate
  have hoffsets : longOffsets .zero 128 = (0, 0) := by decide +kernel
  obtain ⟨hown, hall⟩ := samples_in_own_chunks_iff .software (n := 128) (by decide) (by decide)
  refine ⟨by decide, by decide, .zero, hsize, (hown .zero _ .zero hsize).2.2 ?_, ?_⟩
  · rw [hoffsets]
    decide
  · rw [hall]
    decide

/-- A key of 128 bytes has chunks of eight, and with the table of seed 1 both offsets lead out of
them. The sample of the chunk at 104 begins at 113, so it shows the byte at 119, which no word that
begins in one of the first fourteen chunks does. -/
theorem samples_leave_their_chunks :
    let key : Key := (Array.replicate 128 0).setIfInBounds 119 1
    (OffsetTable.ofSeed 1).Built ∧ key.size = 128 ∧
    (((recipe key.length64 (.ofSeed 1)).trace .software key).filterMap Step.window?)[13]? =
      some (113, 8) ∧
    ¬ InOwnChunks .software (.ofSeed 1) key := by
  intro key
  have hsize : key.size = 128 := by rw [Array.size_setIfInBounds, Array.size_replicate]
  have hbuilt : (OffsetTable.ofSeed 1).Built := OffsetTable.built_ofSeed 1
  have hoffsets : longOffsets (.ofSeed 1) 128 = (15, 9) := by decide +kernel
  have hlong : 128 ≤ key.size := by omega
  have hkey : key.size < 2 ^ 64 := by omega
  obtain ⟨-, hsecond⟩ := windows_pair hbuilt hlong hkey .software (p := 6) (by decide)
  rw [hsize, hoffsets] at hsecond
  refine ⟨hbuilt, hsize, hsecond, ?_⟩
  rw [InOwnChunks, samplesWithin_iff hbuilt hlong hkey, hsize, hoffsets]
  decide

end KeyDigest.Banded
