import KeyDigest.Proofs.Banded.Formula
import KeyDigest.Proofs.Recipe.Traces
import KeyDigest.Proofs.Sampling.Range
import KeyDigest.Proofs.Words.Logarithm

/-!
# Where a long key is read

A chunk is at least as large as the smallest of its bucket, and an offset is below twice that size.
So a sample begins within two chunks of where its chunk begins, and in the first seven pairs the
last word of the key lies behind it. All of this is small against `2 ^ 64`: no position wraps.

* `bucket_ofNat`: the bucket of a chunk, and the bounds of its size.
* `longOffsets_lt_two_pow`, `exists_longOffsets_eq`: the offsets that tables have.
* `longOffsets_lt`: they are below two chunks.
* `seen_recipe`: what a run shows to an observer of positions and windows.

**Theorem (`long_positions_exact`).** The positions of a long key are exact.
-/

namespace KeyDigest.Banded

open Recipe Sampling

variable {kernel : Kernel} {key : Key} {t : OffsetTable} {n : Nat}

/-! ## The bucket of a chunk size -/

/-- The integer logarithm of a chunk size, clamped to 32 bits. -/
def bucketIndex (c : Nat) : Nat := (min c (2 ^ 32 - 1)).log2

theorem bucket_ofNat {c : Nat} (hpos : 0 < c) (hc : c < 2 ^ 64) :
    bucket (.ofNat c) = (bucketIndex c).toUInt32 := by
  have hsize : (if (UInt64.ofNat c).toNat < UInt32.size then (UInt64.ofNat c).toUInt32
      else 0xFFFFFFFF) = UInt32.ofNat (min c (2 ^ 32 - 1)) := by
    rw [toNat_ofNat hc, toUInt32_ofNat]
    split
    · next hlt =>
      have hmin : min c (2 ^ 32 - 1) = c := Nat.min_eq_left (Nat.le_sub_one_of_lt hlt)
      rw [hmin]
    · next hge =>
      have hmin : min c (2 ^ 32 - 1) = 2 ^ 32 - 1 :=
        Nat.min_eq_right ((Nat.sub_le _ _).trans (Nat.le_of_not_lt hge))
      rw [hmin]
      rfl
  have hword : (UInt32.ofNat (min c (2 ^ 32 - 1))).toNat = min c (2 ^ 32 - 1) :=
    UInt32.toNat_ofNat_of_lt' ((Nat.min_le_right _ _).trans_lt (by decide))
  have hne : UInt32.ofNat (min c (2 ^ 32 - 1)) ≠ 0 := by
    intro hzero
    rw [hzero] at hword
    have hmin : 0 < min c (2 ^ 32 - 1) := Nat.lt_min.2 ⟨hpos, by decide⟩
    exact hmin.ne hword
  rw [bucket, hsize, HighestBit.floorLog2_eq hne, hword, Option.getD_some]
  rfl

theorem two_pow_bucketIndex_le {c : Nat} (hpos : 0 < c) : 2 ^ bucketIndex c ≤ c := by
  have hne : min c (2 ^ 32 - 1) ≠ 0 := by omega
  exact (Nat.log2_self_le hne).trans (Nat.min_le_left _ _)

theorem lt_two_pow_bucketIndex {c : Nat} (hc : c < 2 ^ 32) : c < 2 ^ (bucketIndex c + 1) := by
  rw [bucketIndex, Nat.min_eq_left (by omega)]
  exact Nat.lt_log2_self

theorem bucketIndex_lt (c : Nat) : bucketIndex c < bucketCount := by
  by_cases h : min c (2 ^ 32 - 1) = 0
  · rw [bucketIndex, h]
    decide
  · exact (Nat.log2_lt h).2 ((Nat.min_le_right _ _).trans_lt (by decide))

/-- Chunks whose size does not fit into 32 bits are in the last bucket. -/
theorem bucketIndex_of_le {c : Nat} (h : 2 ^ 32 ≤ c) : bucketIndex c = 31 := by
  rw [bucketIndex, Nat.min_eq_right (by omega)]
  decide

/-- Chunks have at least eight bytes, so they have no use for the buckets that are not drawn. -/
theorem undrawnBuckets_le_bucketIndex (hlong : 128 ≤ n) :
    undrawnBuckets ≤ bucketIndex (n / 16) := by
  have hpow : 2 ^ undrawnBuckets ≤ min (n / 16) (2 ^ 32 - 1) := by
    rw [undrawnBuckets]
    omega
  exact (Nat.le_log2 (by omega)).2 hpow

section

variable (hlong : 128 ≤ n) (hn : n < 2 ^ 64)
include hlong hn

theorem longOffsets_lt_two_pow (ht : t.Built) :
    (longOffsets t n).1.toNat < 2 ^ (bucketIndex (n / 16) + 1) ∧
      (longOffsets t n).2.toNat < 2 ^ (bucketIndex (n / 16) + 1) := by
  rw [longOffsets, bucket_ofNat (by omega) (by omega)]
  exact OffsetTable.inRange_iff.1 ht.inRange _ (bucketIndex_lt (n / 16))

/-- Any two offsets below that bound are those of a table. -/
theorem exists_longOffsets_eq (o1 o2 : Nat) (h1 : o1 < 2 ^ (bucketIndex (n / 16) + 1))
    (h2 : o2 < 2 ^ (bucketIndex (n / 16) + 1)) :
    ∃ t : OffsetTable, t.Built ∧
      (longOffsets t n).1.toNat = o1 ∧ (longOffsets t n).2.toNat = o2 := by
  have hindex : bucketIndex (n / 16) < bucketCount := bucketIndex_lt _
  have hpow : 2 ^ (bucketIndex (n / 16) + 1) ≤ 2 ^ 32 := Nat.pow_le_pow_right (by decide) hindex
  have hoffset {o : Nat} (ho : o < 2 ^ (bucketIndex (n / 16) + 1)) :
      (UInt32.ofNat o &&& bucketMask (bucketIndex (n / 16)).toUInt32).toNat = o := by
    have hword : (UInt32.ofNat o).toNat = o := UInt32.toNat_ofNat_of_lt' (ho.trans_le hpow)
    rw [OffsetTable.toNat_and_bucketMask hindex _ (by rwa [hword]), hword]
  refine ⟨.repeating (.ofNat o1) (.ofNat o2), OffsetTable.built_repeating _ _, ?_⟩
  rw [longOffsets, bucket_ofNat (by omega) (by omega),
    OffsetTable.offsets_repeating _ _ (undrawnBuckets_le_bucketIndex hlong) hindex]
  exact ⟨hoffset h1, hoffset h2⟩

/-- The offsets for a chunk are smaller than two chunks. -/
theorem longOffsets_lt (ht : t.Built) :
    (longOffsets t n).1.toNat < 2 * (n / 16) ∧ (longOffsets t n).2.toNat < 2 * (n / 16) := by
  have hlow : 2 ^ bucketIndex (n / 16) ≤ n / 16 := two_pow_bucketIndex_le (by omega)
  have hrange := longOffsets_lt_two_pow hlong hn ht
  rw [Nat.pow_succ] at hrange
  omega

end

/-! ## Positions -/

/-- The positions that the samples of chunk pair `p` ask for. The sample is taken at such a position
unless the last word begins before it. -/
def requestedPositions (n : Nat) (o : UInt32 × UInt32) (p : Nat) : Nat × Nat :=
  let base := 2 * p * (n / 16)
  (base + o.1.toNat,
    if p < 7 then base + n / 16 + o.2.toNat else base + 2 * (n / 16) - (8 + o.2.toNat))

theorem samplePositions_eq (n : Nat) (o : UInt32 × UInt32) (p : Nat) :
    samplePositions n o p =
      (min (requestedPositions n o p).1 (n - 8), min (requestedPositions n o p).2 (n - 8)) := rfl

/-- The positions that the sixteen samples ask for, in order. -/
def requested (n : Nat) (o : UInt32 × UInt32) : List Nat :=
  (List.range 8).flatMap fun p => [(requestedPositions n o p).1, (requestedPositions n o p).2]

theorem requestedPositions_lt (hlong : 128 ≤ n) (hn : n < 2 ^ 64) (o : UInt32 × UInt32) {p : Nat}
    (hp : p < 8) :
    (requestedPositions n o p).1 < 2 ^ 64 ∧ (requestedPositions n o p).2 < 2 ^ 64 := by
  have hbase : 2 * p * (n / 16) ≤ 14 * (n / 16) := Nat.mul_le_mul_right _ (by omega)
  have h1 := o.1.toNat_lt
  have h2 := o.2.toNat_lt
  rw [requestedPositions]
  constructor
  · omega
  · split <;> omega

theorem lt_of_mem_requested (hlong : 128 ≤ n) (hn : n < 2 ^ 64) {o : UInt32 × UInt32} {q : Nat}
    (hq : q ∈ requested n o) : q < 2 ^ 64 := by
  obtain ⟨p, hp, hq⟩ := List.mem_flatMap.1 hq
  have hlt := requestedPositions_lt hlong hn o (List.mem_range.1 hp)
  rcases List.mem_pair.1 hq with rfl | rfl
  · exact hlt.1
  · exact hlt.2

section

variable {o : UInt32 × UInt32} (hlong : 128 ≤ n) (h1 : o.1.toNat < 2 * (n / 16))
  (h2 : o.2.toNat < 2 * (n / 16))
include hlong

include h1 in
/-- Before the last pair, the first sample asks for a position before the last word. -/
theorem requestedPositions_fst_le {p : Nat} (hp : p < 7) :
    (requestedPositions n o p).1 ≤ n - 8 := by
  have hbase : 2 * p * (n / 16) ≤ 12 * (n / 16) := Nat.mul_le_mul_right _ (by omega)
  rw [requestedPositions]
  omega

include h2

/-- The second sample does in every pair. -/
theorem requestedPositions_snd_le {p : Nat} (hp : p < 8) :
    (requestedPositions n o p).2 ≤ n - 8 := by
  have hbase : 2 * p * (n / 16) ≤ 14 * (n / 16) := Nat.mul_le_mul_right _ (by omega)
  rw [requestedPositions]
  split
  · next hlead =>
    have hlead : 2 * p * (n / 16) ≤ 12 * (n / 16) := Nat.mul_le_mul_right _ (by omega)
    omega
  · omega

end

/-! ## What is seen of a long key -/

/-- What is seen of the two samples of chunk pair `p`. -/
def seenPair {γ : Type} (see : Step → Option γ) (kernel : Kernel) (key : Key)
    (o : UInt32 × UInt32) (p : Nat) : List γ :=
  (sample64 key.length64 (.ofNat (requestedPositions key.size o p).1)).seen see kernel key ++
    ((if p < 7 then [] else (compute .subFloor (.ofNat (2 * p * (key.size / 16) +
      2 * (key.size / 16))) (.ofNat (8 + o.2.toNat))).seen see kernel key) ++
    (sample64 key.length64 (.ofNat (requestedPositions key.size o p).2)).seen see kernel key)

section

variable {γ : Type} {see : Step → Option γ} (hsee : Step.SeesReads see)
include hsee

theorem seen_fold (l : Lanes) (v1 v2 : Recipe UInt64) :
    (l.fold v1 v2).seen see kernel key = v1.seen see kernel key ++ v2.seen see kernel key := by
  rw [Lanes.fold, seen_bind, seen_bind, seen_fold64 hsee, List.nil_append, seen_bind, seen_bind,
    seen_fold64 hsee, List.nil_append, seen_pure, List.append_nil]

variable (hlong : 128 ≤ key.size) (hkey : key.size < 2 ^ 64)
include hlong hkey

theorem seen_samplePair {p : Nat} (hp : p < 7) (o : UInt32 × UInt32) (l : Lanes) :
    (samplePair key.length64 (.ofNat (key.size / 16)) o.1.toUInt64 o.2.toUInt64 (.ofNat p) l).seen
      see kernel key = seenPair see kernel key o p := by
  have hbase : 2 * p * (key.size / 16) ≤ 12 * (key.size / 16) :=
    Nat.mul_le_mul_right _ (by omega)
  have h1 := o.1.toNat_lt
  have h2 := o.2.toNat_lt
  rw [toUInt64_eq_ofNat, toUInt64_eq_ofNat, seenPair]
  refine seen_compute_bind hsee rfl (run?_mul (a := 2) (by omega)) ?_
  refine seen_compute_bind hsee rfl (run?_mul (by omega)) ?_
  rw [seen_fold hsee]
  refine congrArg₂ (· ++ ·) ?_ ?_
  · exact seen_compute_bind hsee rfl (run?_add (by omega)) rfl
  · refine seen_compute_bind hsee rfl (run?_add (by omega)) ?_
    refine seen_compute_bind hsee rfl (run?_add (by omega)) ?_
    rw [if_pos hp, List.nil_append, requestedPositions, if_pos hp]

theorem seen_sampleLast (o : UInt32 × UInt32) (l : Lanes) :
    (sampleLast key.length64 (.ofNat (key.size / 16)) o.1.toUInt64 o.2.toUInt64 l).seen
      see kernel key = seenPair see kernel key o 7 := by
  have h1 := o.1.toNat_lt
  have h2 := o.2.toNat_lt
  rw [toUInt64_eq_ofNat, toUInt64_eq_ofNat, seenPair]
  refine seen_compute_bind hsee rfl (run?_sub (a := 16) (b := 2) (by omega) (by omega)) ?_
  refine seen_compute_bind hsee rfl (run?_mul (by omega)) ?_
  rw [seen_fold hsee]
  refine congrArg₂ (· ++ ·) ?_ ?_
  · exact seen_compute_bind hsee rfl (run?_add (by omega)) rfl
  · refine seen_compute_bind hsee rfl (run?_mul (a := 2) (by omega)) ?_
    refine seen_compute_bind hsee rfl (run?_add (by omega)) ?_
    refine seen_compute_bind hsee rfl (run?_add (a := 8) (by omega)) ?_
    exact seen_bind_of_run? (run?_subFloor (by omega) (by omega)) rfl rfl

theorem seen_samplePairs (o : UInt32 × UInt32) (l : Lanes) :
    ([0, 1, 2, 3, 4, 5, 6].foldlM (fun l pair => samplePair key.length64 (.ofNat (key.size / 16))
      o.1.toUInt64 o.2.toUInt64 pair l) l).seen see kernel key =
        (List.range 7).flatMap (seenPair see kernel key o) := by
  have hpairs : ([0, 1, 2, 3, 4, 5, 6] : List UInt64) = (List.range 7).map .ofNat := rfl
  rw [hpairs, seen_foldlM (g := fun x => seenPair see kernel key o x.toNat),
    List.flatMap_map]
  · rfl
  · intro l x hx
    obtain ⟨p, hp, rfl⟩ := List.mem_map.1 hx
    have hlt : p < 7 := List.mem_range.1 hp
    rw [toNat_ofNat (by omega)]
    exact seen_samplePair hsee hlong hkey hlt o l

/-- The samples of the eight pairs of chunks, then the two ends. -/
theorem seen_long (t : OffsetTable) :
    (long key.length64 t).seen see kernel key =
      (List.range 8).flatMap (seenPair see kernel key (longOffsets t key.size)) ++
        ((word64 0).seen see kernel key ++
          (word64 (.ofNat (key.size - 8))).seen see kernel key) := by
  have hlast : (do word64 (← compute .sub key.length64 8)).seen see kernel key =
      (word64 (.ofNat (key.size - 8))).seen see kernel key :=
    seen_compute_bind hsee rfl (run?_sub (b := 8) (by omega) hkey) rfl
  have hsamples : (List.range 8).flatMap (seenPair see kernel key (longOffsets t key.size)) =
      (List.range 7).flatMap (seenPair see kernel key (longOffsets t key.size)) ++
        seenPair see kernel key (longOffsets t key.size) 7 := by
    rw [List.range_succ, List.flatMap_append, List.flatMap_singleton]
  rw [long, length64_div_chunks hkey, seen_bind, seen_fold32 hsee, List.nil_append, seen_bind,
    ← longOffsets, seen_samplePairs hsee hlong hkey, seen_bind, seen_sampleLast hsee hlong hkey,
    seen_bind, seen_fold hsee, hlast, Lanes.join, seen_fold32 hsee, List.append_nil, hsamples,
    List.append_assoc]

theorem seen_recipe (t : OffsetTable) :
    (recipe key.length64 t).seen see kernel key =
      (List.range 8).flatMap (seenPair see kernel key (longOffsets t key.size)) ++
        ((word64 0).seen see kernel key ++
          (word64 (.ofNat (key.size - 8))).seen see kernel key) := by
  rw [recipe, seen_bind, seen_check hsee, List.nil_append, Key.toNat_length64 hkey,
    Band.ofLength?_eq_long_iff.2 hlong]
  exact seen_long hsee hlong hkey t

end

/-! ## Exact positions -/

section

variable (hlong : 128 ≤ key.size) (hkey : key.size < 2 ^ 64)
include hlong hkey

theorem clamps_recipe (t : OffsetTable) :
    ((recipe key.length64 t).trace kernel key).filterMap Step.clamp? =
      (requested key.size (longOffsets t key.size)).map fun q =>
        (.ofNat q, .ofNat (key.size - 8)) := by
  rw [← seen, seen_recipe Step.seesReads_clamp? hlong hkey, requested, List.map_flatMap]
  refine (List.append_nil _).trans (List.flatMap_congr fun p _ => ?_)
  rw [seenPair, clamps_sample64 hkey, clamps_sample64 hkey]
  split <;> rfl

theorem floors_recipe (t : OffsetTable) :
    ((recipe key.length64 t).trace kernel key).filterMap Step.floor? =
      (List.range 8).flatMap fun p => (key.length64, 8) ::
        ((if p < 7 then [] else [(.ofNat (2 * p * (key.size / 16) + 2 * (key.size / 16)),
          .ofNat (8 + (longOffsets t key.size).2.toNat))]) ++ [(key.length64, 8)]) := by
  rw [← seen, seen_recipe Step.seesReads_floor? hlong hkey]
  refine (List.append_nil _).trans (List.flatMap_congr fun p _ => ?_)
  rw [seenPair, floors_sample64 hkey, floors_sample64 hkey]
  split <;> rfl

theorem windows_recipe (t : OffsetTable) :
    ((recipe key.length64 t).trace kernel key).filterMap Step.window? =
      ((requested key.size (longOffsets t key.size)).map (min · (key.size - 8)) ++
        [0, key.size - 8]).map fun q => (.ofNat q, 8) := by
  have hsamples : (List.range 8).flatMap
      (seenPair Step.window? kernel key (longOffsets t key.size)) =
        (requested key.size (longOffsets t key.size)).map fun q =>
          (.ofNat (min q (key.size - 8)), 8) := by
    rw [requested, List.map_flatMap]
    refine List.flatMap_congr fun p hp => ?_
    have hlt := requestedPositions_lt hlong hkey (longOffsets t key.size) (List.mem_range.1 hp)
    rw [seenPair, windows_sample64 hkey (by omega) hlt.1, windows_sample64 hkey (by omega) hlt.2]
    split <;> rfl
  rw [← seen, seen_recipe Step.seesReads_window? hlong hkey, hsamples, List.map_append,
    List.map_map]
  rfl

end

theorem exact_of_mem_trace (hlong : 128 ≤ key.size) (hkey : key.size < 2 ^ 64) (t : OffsetTable)
    {op : Arithmetic} {a b : UInt64}
    (h : .compute op a b ∈ (recipe key.length64 t).trace kernel key) : op.exact a b := by
  have hsome : ((recipe key.length64 t).run? kernel key).isSome := by
    rw [run?_recipe (by omega) hkey, Option.isSome_some]
  exact isSome_run?_iff.1 hsome _ h

/-- No subtraction stops at zero. -/
theorem le_of_mem_trace (ht : t.Built) (hlong : 128 ≤ key.size) (hkey : key.size < 2 ^ 64)
    {a b : UInt64} (h : .compute .subFloor a b ∈ (recipe key.length64 t).trace kernel key) :
    b ≤ a := by
  have hlast : 8 ≤ key.length64 := (UInt64.ofNat_le_iff_le (a := 8) (by decide) hkey).2 (by omega)
  have hoffset := (longOffsets_lt hlong hkey ht).2
  have hmem : (a, b) ∈ ((recipe key.length64 t).trace kernel key).filterMap Step.floor? :=
    List.mem_filterMap.2 ⟨_, h, rfl⟩
  rw [floors_recipe hlong hkey] at hmem
  obtain ⟨p, hp, hmem⟩ := List.mem_flatMap.1 hmem
  have hlt : p < 8 := List.mem_range.1 hp
  rcases List.mem_cons.1 hmem with heq | hmem
  · obtain ⟨rfl, rfl⟩ := Prod.mk.inj heq
    exact hlast
  rcases List.mem_append.1 hmem with hmem | hmem
  · split at hmem
    · exact absurd hmem List.not_mem_nil
    · obtain ⟨rfl, rfl⟩ := Prod.mk.inj (List.mem_singleton.1 hmem)
      have hseven : p = 7 := by omega
      subst hseven
      exact (UInt64.ofNat_le_iff_le (show _ < 2 ^ 64 by omega) (show _ < 2 ^ 64 by omega)).2
        (by omega)
  · obtain ⟨rfl, rfl⟩ := Prod.mk.inj (List.mem_singleton.1 hmem)
    exact hlast

/-- **The positions of a long key are exact.** With every table that can be built, no step of the
recipe leaves the 64-bit range and no subtraction stops at zero. The samples ask for the positions
that the formulas give in natural numbers, and only the first one of the last pair of chunks may
have to be pulled back. The mirrored position is at least `14 * c - 7`, where `c` is the size of a
chunk; chunks of more than 32 bits use the last bucket. -/
theorem long_positions_exact (ht : t.Built) (kernel : Kernel) (hlong : 128 ≤ key.size)
    (hkey : key.size < 2 ^ 64) :
    (∀ op a b, .compute op a b ∈ (recipe key.length64 t).trace kernel key →
      op.exact a b ∧ (op = .subFloor → b ≤ a)) ∧
    (((recipe key.length64 t).trace kernel key).filterMap Step.clamp?).map
        (fun c => (c.1.toNat, c.2.toNat)) =
      (requested key.size (longOffsets t key.size)).map (·, key.size - 8) ∧
    (∀ p < 7, (requestedPositions key.size (longOffsets t key.size) p).1 ≤ key.size - 8) ∧
    (∀ p < 8, (requestedPositions key.size (longOffsets t key.size) p).2 ≤ key.size - 8) ∧
    8 + (longOffsets t key.size).2.toNat ≤ 16 * (key.size / 16) ∧
    (requestedPositions key.size (longOffsets t key.size) 7).2 =
      16 * (key.size / 16) - (8 + (longOffsets t key.size).2.toNat) ∧
    14 * (key.size / 16) - 7 ≤ (requestedPositions key.size (longOffsets t key.size) 7).2 ∧
    (2 ^ 32 ≤ key.size / 16 → bucket (.ofNat (key.size / 16)) = 31) := by
  obtain ⟨h1, h2⟩ := longOffsets_lt hlong hkey ht
  have hmirrored : (requestedPositions key.size (longOffsets t key.size) 7).2 =
      16 * (key.size / 16) - (8 + (longOffsets t key.size).2.toNat) := by
    rw [requestedPositions, if_neg (by decide), ← Nat.add_mul]
  refine ⟨?_, ?_, ?_, ?_, by omega, hmirrored, by omega, ?_⟩
  · intro op a b h
    refine ⟨exact_of_mem_trace hlong hkey t h, ?_⟩
    rintro rfl
    exact le_of_mem_trace ht hlong hkey h
  · rw [clamps_recipe hlong hkey, List.map_map]
    refine List.map_congr_left fun q hq => ?_
    rw [Function.comp_apply, toNat_ofNat (lt_of_mem_requested hlong hkey hq),
      toNat_ofNat (by omega)]
  · intro p hp
    exact requestedPositions_fst_le hlong h1 hp
  · intro p hp
    exact requestedPositions_snd_le hlong h2 hp
  · intro hwide
    rw [bucket_ofNat (by omega) (by omega), bucketIndex_of_le hwide]
    rfl

/-- A key of 64 GiB has chunks of 4 GiB, whose size does not fit into 32 bits. -/
theorem long_positions_exact_wide :
    (OffsetTable.ofSeed 1).Built ∧ 128 ≤ (Array.replicate (2 ^ 36) 0 : Key).size ∧
    (Array.replicate (2 ^ 36) 0 : Key).size < 2 ^ 64 ∧
    bucket (.ofNat ((Array.replicate (2 ^ 36) 0 : Key).size / 16)) = 31 ∧
    14 * 2 ^ 32 - 7 ≤ (requestedPositions (Array.replicate (2 ^ 36) 0 : Key).size
      (longOffsets (.ofSeed 1) (Array.replicate (2 ^ 36) 0 : Key).size) 7).2 := by
  have hsize : (Array.replicate (2 ^ 36) 0 : Key).size = 2 ^ 36 := Array.size_replicate
  generalize (Array.replicate (2 ^ 36) 0 : Key) = key at hsize ⊢
  have hlong : 128 ≤ key.size := by rw [hsize]; decide
  have hkey : key.size < 2 ^ 64 := by rw [hsize]; decide
  obtain ⟨-, -, -, -, -, -, hlow, hbucket⟩ :=
    long_positions_exact (OffsetTable.built_ofSeed 1) .software hlong hkey
  refine ⟨OffsetTable.built_ofSeed 1, hlong, hkey, hbucket (by rw [hsize]; decide), ?_⟩
  rwa [hsize] at hlow ⊢

end KeyDigest.Banded
