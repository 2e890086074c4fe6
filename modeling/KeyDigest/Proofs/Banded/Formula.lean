import KeyDigest.Proofs.Lookup3.Formula
import KeyDigest.Banded

/-!
# The banded digest as a formula

No recipe of a band leaves the key or the 64-bit range, and what each one computes is a formula in
the words at fixed positions of the key. It is enough that the length fits into 64 bits: the largest
position, an offset from the beginning of the last pair of chunks, then fits too.

* `run?_short`, `run?_medium`, `run?_long`: the bands.
* `run?_recipe`: every key but the empty one.
-/

namespace KeyDigest.Banded

open Recipe Sampling

variable {kernel : Kernel} {key : Key}

/-! ## Short keys -/

/-- The two words of a short key, the first and the last one. -/
def shortWords (key : Key) : UInt64 × UInt64 :=
  if 8 ≤ key.size then (key.word64At 0, key.word64At (key.size - 8))
  else ((key.word32At 0).toUInt64, (key.word32At (key.size - 4)).toUInt64)

def shortDigest (kernel : Kernel) (key : Key) : UInt32 :=
  kernel.fold64 (kernel.fold64 (kernel.fold32 0 (.ofNat key.size)) (shortWords key).1)
    (shortWords key).2

theorem run?_short (hfour : 4 ≤ key.size) (hkey : key.size < 2 ^ 64) :
    (short key.length64).run? kernel key = some (shortDigest kernel key) := by
  have height : 8 ≤ key.length64 ↔ 8 ≤ key.size :=
    UInt64.ofNat_le_iff_le (a := 8) (by decide) hkey
  have hfolds (v1 v2 : UInt64) :
      (do fold64 (← fold64 (← fold32 0 (.ofNat key.size)) v1) v2).run? kernel key =
        some (kernel.fold64 (kernel.fold64 (kernel.fold32 0 (.ofNat key.size)) v1) v2) := by
    refine run?_bind_eq_some (run?_fold32 0 _) ?_
    refine run?_bind_eq_some (run?_fold64 _ _) ?_
    exact run?_fold64 _ _
  rw [short, toUInt32_length64, shortDigest, shortWords]
  by_cases h : 8 ≤ key.size
  · rw [if_pos (height.2 h), if_pos h]
    refine run?_bind_eq_some (run?_word64 (p := 0) hkey (by omega)) ?_
    refine run?_bind_eq_some (run?_sub (b := 8) h hkey) ?_
    refine run?_bind_eq_some (run?_word64 hkey (by omega)) ?_
    refine run?_bind_eq_some (run?_pure _) ?_
    exact hfolds _ _
  · rw [if_neg (mt height.1 h), if_neg h]
    refine run?_bind_eq_some (run?_word32 (p := 0) hkey (by omega)) ?_
    refine run?_bind_eq_some (run?_sub (b := 4) hfour hkey) ?_
    refine run?_bind_eq_some (run?_word32 hkey (by omega)) ?_
    refine run?_bind_eq_some (run?_pure _) ?_
    exact hfolds _ _

/-! ## Two lanes -/

/-- A word counted back from the end of the key. -/
theorem run?_word64_back {b : Nat} (hin : 8 ≤ b) (hb : b ≤ key.size) (hkey : key.size < 2 ^ 64) :
    (do word64 (← compute .sub key.length64 (.ofNat b))).run? kernel key =
      some (key.word64At (key.size - b)) :=
  run?_bind_eq_some (run?_sub hb hkey) (run?_word64 hkey (by omega))

def Lanes.foldWords (kernel : Kernel) (l : Lanes) (v : UInt64 × UInt64) : Lanes :=
  ⟨kernel.fold64 l.first v.1, kernel.fold64 l.second v.2⟩

theorem run?_fold {v1 v2 : Recipe UInt64} {v : UInt64 × UInt64} (l : Lanes)
    (h1 : v1.run? kernel key = some v.1) (h2 : v2.run? kernel key = some v.2) :
    (l.fold v1 v2).run? kernel key = some (l.foldWords kernel v) := by
  refine run?_bind_eq_some h1 ?_
  refine run?_bind_eq_some (run?_fold64 _ _) ?_
  refine run?_bind_eq_some h2 ?_
  refine run?_bind_eq_some (run?_fold64 _ _) ?_
  exact run?_pure _

theorem run?_join (l : Lanes) :
    l.join.run? kernel key = some (kernel.fold32 l.first l.second) :=
  run?_fold32 l.first l.second

/-! ## Medium keys -/

/-- The two words of the stride at `i`. -/
def strideWords (key : Key) (i : Nat) : UInt64 × UInt64 := (key.word64At i, key.word64At (i + 8))

/-- The lanes after `k` strides from `i` on, each of which adds to a lane what it makes of it. -/
def strideLanes (kernel : Kernel) (key : Key) : Nat → Nat → Lanes → Lanes
  | 0, _, l => l
  | k + 1, i, l =>
    let folded := l.foldWords kernel (strideWords key i)
    strideLanes kernel key k (i + 16) ⟨l.first + folded.first, l.second + folded.second⟩

/-- The strides end where at most sixteen bytes are left, before their fuel does. -/
theorem run?_strides {fuel i k : Nat} (hin : i + 16 * k < key.size)
    (hend : key.size ≤ i + 16 * k + 16) (hfuel : k < fuel) (hlong : key.size < 128) (l : Lanes) :
    (strides key.length64 fuel (.ofNat i) l).run? kernel key =
      some (strideLanes kernel key k i l) := by
  -- `k` strides are left, and each round of the recursion takes one of them and one of the fuel.
  induction fuel generalizing i k l with
  | zero => omega
  | succ fuel ih =>
    have hkey : key.size < 2 ^ 64 := by omega
    have hnext : UInt64.ofNat (i + 16) < key.length64 ↔ i + 16 < key.size :=
      UInt64.ofNat_lt_iff_lt (show i + 16 < 2 ^ 64 by omega) hkey
    refine run?_bind_eq_some (run?_add (b := 16) (by omega)) ?_
    cases k with
    | zero =>
      rw [if_neg (mt hnext.1 (by omega))]
      exact run?_pure l
    | succ k =>
      rw [if_pos (hnext.2 (by omega))]
      have hfirst : (word64 (.ofNat i)).run? kernel key = some (strideWords key i).1 :=
        run?_word64 hkey (by omega)
      have hsecond : (do word64 (← compute .add (.ofNat i) 8)).run? kernel key =
          some (strideWords key i).2 :=
        run?_bind_eq_some (run?_add (b := 8) (by omega)) (run?_word64 hkey (by omega))
      refine run?_bind_eq_some (run?_fold l hfirst hsecond) ?_
      exact ih (by omega) (by omega) (by omega) _

/-- How many strides there are in a key of `n` bytes: all that leave it a tail of sixteen bytes. -/
def strideCount (n : Nat) : Nat := (n - 1) / 16

def tailWords (key : Key) : UInt64 × UInt64 :=
  (key.word64At (key.size - 16), key.word64At (key.size - 8))

def mediumLanes (kernel : Kernel) (key : Key) : Lanes :=
  (strideLanes kernel key (strideCount key.size) 0
    ⟨kernel.fold32 0 (.ofNat key.size), 0⟩).foldWords kernel (tailWords key)

def mediumDigest (kernel : Kernel) (key : Key) : UInt32 :=
  kernel.fold32 (mediumLanes kernel key).first (mediumLanes kernel key).second

theorem run?_medium (hsixteen : 16 ≤ key.size) (hlong : key.size < 128) :
    (medium key.length64).run? kernel key = some (mediumDigest kernel key) := by
  have hkey : key.size < 2 ^ 64 := by omega
  have hcount : strideCount key.size = (key.size - 1) / 16 := rfl
  rw [medium, toUInt32_length64]
  refine run?_bind_eq_some (run?_fold32 0 _) ?_
  refine run?_bind_eq_some
    (run?_strides (i := 0) (k := strideCount key.size) (by omega) (by omega) (by omega) hlong _) ?_
  refine run?_bind_eq_some
    (run?_fold (v := tailWords key) _ (run?_word64_back (b := 16) (by decide) hsixteen hkey)
      (run?_word64_back (b := 8) (by decide) (by omega) hkey)) ?_
  exact run?_join _

/-! ## Long keys -/

/-- The positions of the two samples of chunk pair `p` in a key of `n` bytes. The offsets `o` count
from the beginnings of the two chunks, but for the second one in the last pair, which counts back
from the end; no sample reaches beyond the last word. -/
def samplePositions (n : Nat) (o : UInt32 × UInt32) (p : Nat) : Nat × Nat :=
  let base := 2 * p * (n / 16)
  let second :=
    if p < 7 then base + n / 16 + o.2.toNat else base + 2 * (n / 16) - (8 + o.2.toNat)
  (min (base + o.1.toNat) (n - 8), min second (n - 8))

def sampleWords (key : Key) (o : UInt32 × UInt32) (p : Nat) : UInt64 × UInt64 :=
  (key.word64At (samplePositions key.size o p).1, key.word64At (samplePositions key.size o p).2)

/-- The words folded into the two lanes of a long key: the samples of the eight pairs of chunks,
then the first and the last word. -/
def longWords (key : Key) (o : UInt32 × UInt32) : List (UInt64 × UInt64) :=
  (List.range 8).map (sampleWords key o) ++ [(key.word64At 0, key.word64At (key.size - 8))]

/-- The offsets that a table has for a key of `n` bytes. -/
def longOffsets (t : OffsetTable) (n : Nat) : UInt32 × UInt32 :=
  t.offsets (bucket (.ofNat (n / 16)))

def longLanes (kernel : Kernel) (key : Key) (o : UInt32 × UInt32) : Lanes :=
  (longWords key o).foldl (Lanes.foldWords kernel) ⟨kernel.fold32 0 (.ofNat key.size), 0⟩

def longDigest (kernel : Kernel) (t : OffsetTable) (key : Key) : UInt32 :=
  let l := longLanes kernel key (longOffsets t key.size)
  kernel.fold32 l.first l.second

theorem div_chunks (n : UInt64) : n / chunks = .ofNat (n.toNat / 16) := by
  apply UInt64.toNat_inj.1
  have hn := n.toNat_lt
  rw [UInt64.toNat_div, toNat_ofNat (by omega)]
  rfl

theorem length64_div_chunks (hkey : key.size < 2 ^ 64) :
    key.length64 / chunks = .ofNat (key.size / 16) := by
  rw [div_chunks, Key.toNat_length64 hkey]

theorem toUInt64_eq_ofNat (o : UInt32) : o.toUInt64 = .ofNat o.toNat := by
  apply UInt64.toNat_inj.1
  have ho := o.toNat_lt
  rw [toNat_ofNat (by omega), UInt32.toNat_toUInt64]

section

variable (hlong : 128 ≤ key.size) (hkey : key.size < 2 ^ 64)
include hlong hkey

theorem run?_samplePair {p : Nat} (hp : p < 7) (o : UInt32 × UInt32) (l : Lanes) :
    (samplePair key.length64 (.ofNat (key.size / 16)) o.1.toUInt64 o.2.toUInt64 (.ofNat p) l).run?
      kernel key = some (l.foldWords kernel (sampleWords key o p)) := by
  have hbase : 2 * p * (key.size / 16) ≤ 12 * (key.size / 16) :=
    Nat.mul_le_mul_right _ (by omega)
  have h1 := o.1.toNat_lt
  have h2 := o.2.toNat_lt
  rw [toUInt64_eq_ofNat, toUInt64_eq_ofNat]
  refine run?_bind_eq_some (run?_mul (a := 2) (by omega)) ?_
  refine run?_bind_eq_some (run?_mul (by omega)) ?_
  refine run?_fold l ?_ ?_
  · refine run?_bind_eq_some (run?_add (by omega)) ?_
    exact run?_sample64 hkey (by omega) (by omega)
  · refine run?_bind_eq_some (run?_add (by omega)) ?_
    refine run?_bind_eq_some (run?_add (by omega)) ?_
    rw [run?_sample64 hkey (by omega) (by omega), sampleWords, samplePositions, if_pos hp]

theorem run?_sampleLast (o : UInt32 × UInt32) (l : Lanes) :
    (sampleLast key.length64 (.ofNat (key.size / 16)) o.1.toUInt64 o.2.toUInt64 l).run?
      kernel key = some (l.foldWords kernel (sampleWords key o 7)) := by
  have h1 := o.1.toNat_lt
  have h2 := o.2.toNat_lt
  rw [toUInt64_eq_ofNat, toUInt64_eq_ofNat]
  refine run?_bind_eq_some (run?_sub (a := 16) (b := 2) (by omega) (by omega)) ?_
  refine run?_bind_eq_some (run?_mul (by omega)) ?_
  refine run?_fold l ?_ ?_
  · refine run?_bind_eq_some (run?_add (by omega)) ?_
    exact run?_sample64 hkey (by omega) (by omega)
  · refine run?_bind_eq_some (run?_mul (a := 2) (by omega)) ?_
    refine run?_bind_eq_some (run?_add (by omega)) ?_
    refine run?_bind_eq_some (run?_add (a := 8) (by omega)) ?_
    refine run?_bind_eq_some (run?_subFloor (by omega) (by omega)) ?_
    exact run?_sample64 hkey (by omega) (by omega)

theorem run?_long (t : OffsetTable) :
    (long key.length64 t).run? kernel key = some (longDigest kernel t key) := by
  rw [long, length64_div_chunks hkey, toUInt32_length64]
  refine run?_bind_eq_some (run?_fold32 0 _) ?_
  refine run?_bind_eq_some
    (run?_foldlM ((List.range 7).map UInt64.ofNat)
      (g := fun l p => l.foldWords kernel (sampleWords key (longOffsets t key.size) p.toNat))
      (fun l x hx => ?_) _) ?_
  · obtain ⟨p, hp, rfl⟩ := List.mem_map.1 hx
    have hlt : p < 7 := List.mem_range.1 hp
    rw [toNat_ofNat (by omega)]
    exact run?_samplePair hlong hkey hlt _ l
  refine run?_bind_eq_some (run?_sampleLast hlong hkey _ _) ?_
  refine run?_bind_eq_some
    (run?_fold (v := (key.word64At 0, key.word64At (key.size - 8))) _
      (run?_word64 (p := 0) hkey (by omega))
      (run?_word64_back (b := 8) (by decide) (by omega) hkey)) ?_
  exact run?_join _

end

/-! ## All keys but the empty one -/

/-- The digest of a key that is not empty. -/
def formula (kernel : Kernel) (t : OffsetTable) (key : Key) : UInt32 :=
  match Band.ofLength? key.size with
  | some .short => shortDigest kernel key
  | some .medium => mediumDigest kernel key
  | some .long => longDigest kernel t key
  | some .tiny | none => Lookup3.tinyDigest key

/-- **The banded digest of every key but the empty one stays inside.** -/
theorem run?_recipe (hpos : 0 < key.size) (hkey : key.size < 2 ^ 64) (t : OffsetTable) :
    (recipe key.length64 t).run? kernel key = some (formula kernel t key) := by
  have hcheck : decide (0 < key.length64) = true :=
    decide_eq_true ((UInt64.ofNat_lt_iff_lt (a := 0) (by decide) hkey).2 hpos)
  rw [recipe]
  refine run?_bind_eq_some (run?_check _ hcheck) ?_
  rw [Key.toNat_length64 hkey, formula]
  cases hband : Band.ofLength? key.size with
  | none => exact absurd (Band.ofLength?_eq_none_iff.1 hband) (by omega)
  | some band =>
    cases band with
    | tiny => exact Lookup3.run?_tiny hpos hkey
    | short => exact run?_short (Band.ofLength?_eq_short_iff.1 hband).1 hkey
    | medium =>
      obtain ⟨hsixteen, hlong⟩ := Band.ofLength?_eq_medium_iff.1 hband
      exact run?_medium hsixteen hlong
    | long => exact run?_long (Band.ofLength?_eq_long_iff.1 hband) hkey t

theorem digest?_eq (hkey : key.size < 2 ^ 64) (t : OffsetTable) :
    digest? kernel t key = some (digest kernel t key) := by
  unfold digest? digest
  split
  · rfl
  · next hempty =>
    have hpos : 0 < key.size := Array.size_pos_iff.2 fun h => hempty (Array.isEmpty_iff.2 h)
    exact run?_eq_some_run (run?_recipe hpos hkey t)

theorem digest_eq_run (hpos : 0 < key.size) (kernel : Kernel) (t : OffsetTable) :
    digest kernel t key = (recipe key.length64 t).run kernel key := by
  have hempty : ¬ key.isEmpty := fun h => by simp [Array.isEmpty_iff.1 h] at hpos
  rw [digest, if_neg hempty]

theorem digest_eq_formula (hpos : 0 < key.size) (hkey : key.size < 2 ^ 64) (t : OffsetTable) :
    digest kernel t key = formula kernel t key := by
  rw [digest_eq_run hpos]
  exact run_eq_of_run? (run?_recipe hpos hkey t)

theorem digest_of_short (hfour : 4 ≤ key.size) (hshort : key.size < 16) (t : OffsetTable) :
    digest kernel t key = shortDigest kernel key := by
  rw [digest_eq_formula (by omega) (by omega), formula,
    Band.ofLength?_eq_short_iff.2 ⟨hfour, hshort⟩]

theorem digest_of_medium (hsixteen : 16 ≤ key.size) (hmedium : key.size < 128) (t : OffsetTable) :
    digest kernel t key = mediumDigest kernel key := by
  rw [digest_eq_formula (by omega) (by omega), formula,
    Band.ofLength?_eq_medium_iff.2 ⟨hsixteen, hmedium⟩]

theorem digest_of_long (hlong : 128 ≤ key.size) (hkey : key.size < 2 ^ 64) (t : OffsetTable) :
    digest kernel t key = longDigest kernel t key := by
  rw [digest_eq_formula (by omega) hkey, formula, Band.ofLength?_eq_long_iff.2 hlong]

end KeyDigest.Banded
