import KeyDigest.Proofs.Banded.Medium
import KeyDigest.Proofs.Banded.Short
import KeyDigest.Proofs.Recipe.Traces

/-!
# How many words are folded

A key of any length is digested by at most twenty folds. Every band but the tiny one begins with
the length; the short and the medium band go on with all of the key. The strides of a medium key
end before the key does, and the tail makes up for it: together they read every byte, and twice
those bytes of the tail that the last stride has read before.

* `accesses_short`, `accesses_medium`: the reads and folds of a short and of a medium key.
* `length_folds`, `head?_folds`: the number of folds, and the first one.
* `timesRead_short`, `timesRead_medium`: how often a byte is read.

**Theorem (`folds_cover_key`).** The number of folds, and what they cover.
-/

namespace KeyDigest.Banded

open Recipe Sampling

variable {kernel : Kernel} {key : Key}

/-! ## Windows -/

/-- How many of the windows hold byte `i`. -/
def timesRead (windows : List (UInt64 × Nat)) (i : Nat) : Nat :=
  windows.countP fun w => w.1.toNat ≤ i ∧ i < w.1.toNat + w.2

theorem timesRead_append (a b : List (UInt64 × Nat)) (i : Nat) :
    timesRead (a ++ b) i = timesRead a i + timesRead b i := List.countP_append

/-- Two windows of one width. -/
theorem timesRead_pair {p q width : Nat} (hp : p < 2 ^ 64) (hq : q < 2 ^ 64) (i : Nat) :
    timesRead [(.ofNat p, width), (.ofNat q, width)] i =
      (if p ≤ i ∧ i < p + width then 1 else 0) + if q ≤ i ∧ i < q + width then 1 else 0 := by
  rw [timesRead, List.countP_cons, List.countP_singleton, toNat_ofNat hp, toNat_ofNat hq,
    Nat.add_comm]
  simp

/-- The windows of `k` strides from `i` on. -/
def strideWindows : Nat → Nat → List (UInt64 × Nat)
  | 0, _ => []
  | k + 1, i => [(.ofNat i, 8), (.ofNat (i + 8), 8)] ++ strideWindows k (i + 16)

theorem timesRead_strideWindows {k i : Nat} (hfits : i + 16 * k < 2 ^ 64) (p : Nat) :
    timesRead (strideWindows k i) p = if i ≤ p ∧ p < i + 16 * k then 1 else 0 := by
  induction k generalizing i with
  | zero =>
    rw [if_neg (by omega)]
    rfl
  | succ k ih =>
    rw [strideWindows, timesRead_append, timesRead_pair (by omega) (by omega), ih (by omega)]
    split_ifs <;> omega

/-! ## Short keys -/

theorem shortWidth_le {n : Nat} (hfour : 4 ≤ n) : shortWidth n ≤ n := by
  rw [shortWidth]
  split <;> omega

/-- The reads and folds of a short key. -/
def shortAccesses (kernel : Kernel) (key : Key) : List Step :=
  let h := kernel.fold32 0 (.ofNat key.size)
  (if 8 ≤ key.size then [.word64 0, .word64 (.ofNat (key.size - 8))]
    else [.word32 0, .word32 (.ofNat (key.size - 4))]) ++
    [.fold32 0 (.ofNat key.size), .fold64 h (shortWords key).1,
      .fold64 (kernel.fold64 h (shortWords key).1) (shortWords key).2]

theorem accesses_short (hfour : 4 ≤ key.size) (hkey : key.size < 2 ^ 64) :
    (short key.length64).accesses kernel key = shortAccesses kernel key := by
  have height : 8 ≤ key.length64 ↔ 8 ≤ key.size :=
    UInt64.ofNat_le_iff_le (a := 8) (by decide) hkey
  rw [short, toUInt32_length64, shortAccesses, shortWords]
  by_cases h : 8 ≤ key.size
  · rw [if_pos (height.2 h), if_pos h, if_pos h]
    refine accesses_bind_of_run? (x := [_]) (run?_word64 (p := 0) hkey (by omega)) rfl ?_
    refine accesses_bind_of_run? (x := []) (run?_sub (b := 8) h hkey) rfl ?_
    refine accesses_bind_of_run? (x := [_]) (run?_word64 hkey (by omega)) rfl ?_
    rfl
  · rw [if_neg (mt height.1 h), if_neg h, if_neg h]
    refine accesses_bind_of_run? (x := [_]) (run?_word32 (p := 0) hkey (by omega)) rfl ?_
    refine accesses_bind_of_run? (x := []) (run?_sub (b := 4) hfour hkey) rfl ?_
    refine accesses_bind_of_run? (x := [_]) (run?_word32 hkey (by omega)) rfl ?_
    rfl

/-! ## Medium keys -/

/-- The reads and folds that take two words, found at `p`, into the lanes. -/
def Lanes.accesses (l : Lanes) (p : Nat × Nat) (v : UInt64 × UInt64) : List Step :=
  [.word64 (.ofNat p.1), .fold64 l.first v.1, .word64 (.ofNat p.2), .fold64 l.second v.2]

theorem accesses_fold {v1 v2 : Recipe UInt64} {v : UInt64 × UInt64} {p : Nat × Nat} (l : Lanes)
    (h1 : v1.run? kernel key = some v.1) (h2 : v2.run? kernel key = some v.2)
    (hread1 : v1.accesses kernel key = [.word64 (.ofNat p.1)])
    (hread2 : v2.accesses kernel key = [.word64 (.ofNat p.2)]) :
    (l.fold v1 v2).accesses kernel key = l.accesses p v := by
  refine accesses_bind_of_run? h1 hread1 ?_
  refine accesses_bind_of_run? (run?_fold64 _ _) rfl ?_
  refine accesses_bind_of_run? h2 hread2 ?_
  rfl

/-- The reads and folds of `k` strides from `i` on. -/
def strideAccesses (kernel : Kernel) (key : Key) : Nat → Nat → Lanes → List Step
  | 0, _, _ => []
  | k + 1, i, l => l.accesses (i, i + 8) (strideWords key i) ++
      strideAccesses kernel key k (i + 16) (l.addWords kernel (strideWords key i))

theorem accesses_strides {fuel i k : Nat} (hin : i + 16 * k < key.size)
    (hend : key.size ≤ i + 16 * k + 16) (hfuel : k < fuel) (hlong : key.size < 128) (l : Lanes) :
    (strides key.length64 fuel (.ofNat i) l).accesses kernel key =
      strideAccesses kernel key k i l := by
  -- As in `run?_strides`: a round takes one of the `k` strides that are left, and one of the fuel.
  induction fuel generalizing i k l with
  | zero => omega
  | succ fuel ih =>
    have hkey : key.size < 2 ^ 64 := by omega
    have hnext : UInt64.ofNat (i + 16) < key.length64 ↔ i + 16 < key.size :=
      UInt64.ofNat_lt_iff_lt (show i + 16 < 2 ^ 64 by omega) hkey
    refine accesses_bind_of_run? (x := []) (run?_add (b := 16) (by omega)) rfl ?_
    cases k with
    | zero =>
      rw [if_neg (mt hnext.1 (by omega))]
      rfl
    | succ k =>
      rw [if_pos (hnext.2 (by omega))]
      have hfirst : (word64 (.ofNat i)).run? kernel key = some (strideWords key i).1 :=
        run?_word64 hkey (by omega)
      have hsecond : (do word64 (← compute .add (.ofNat i) 8)).run? kernel key =
          some (strideWords key i).2 :=
        run?_bind_eq_some (run?_add (b := 8) (by omega)) (run?_word64 hkey (by omega))
      have hread : (do word64 (← compute .add (.ofNat i) 8)).accesses kernel key =
          [.word64 (.ofNat (i + 8))] :=
        accesses_bind_of_run? (run?_add (b := 8) (by omega)) rfl rfl
      refine accesses_bind_of_run? (run?_fold l hfirst hsecond)
        (accesses_fold l hfirst hsecond rfl hread) ?_
      exact ih (by omega) (by omega) (by omega) _

/-- The reads and folds of a medium key. -/
def mediumAccesses (kernel : Kernel) (key : Key) : List Step :=
  let start : Lanes := ⟨kernel.fold32 0 (.ofNat key.size), 0⟩
  let stridden := strideLanes kernel key (strideCount key.size) 0 start
  .fold32 0 (.ofNat key.size) :: (strideAccesses kernel key (strideCount key.size) 0 start ++
    (stridden.accesses (key.size - 16, key.size - 8) (tailWords key) ++
      [.fold32 (mediumLanes kernel key).first (mediumLanes kernel key).second]))

theorem accesses_medium (hsixteen : 16 ≤ key.size) (hlong : key.size < 128) :
    (medium key.length64).accesses kernel key = mediumAccesses kernel key := by
  have hkey : key.size < 2 ^ 64 := by omega
  have height : 8 ≤ key.size := by omega
  have hcount : strideCount key.size = (key.size - 1) / 16 := rfl
  have hread {b : Nat} (hb : b ≤ key.size) :
      (do word64 (← compute .sub key.length64 (.ofNat b))).accesses kernel key =
        [.word64 (.ofNat (key.size - b))] :=
    accesses_bind_of_run? (run?_sub hb hkey) rfl rfl
  rw [medium, toUInt32_length64]
  refine accesses_bind_of_run? (x := [_]) (run?_fold32 0 _) rfl ?_
  refine accesses_bind_of_run?
    (run?_strides (i := 0) (k := strideCount key.size) (by omega) (by omega) (by omega) hlong _)
    (accesses_strides (i := 0) (by omega) (by omega) (by omega) hlong _) ?_
  have hfirst : (do word64 (← compute .sub key.length64 16)).run? kernel key =
      some (tailWords key).1 := run?_word64_back (b := 16) (by decide) hsixteen hkey
  have hsecond : (do word64 (← compute .sub key.length64 8)).run? kernel key =
      some (tailWords key).2 := run?_word64_back (b := 8) (by decide) height hkey
  refine accesses_bind_of_run? (run?_fold _ hfirst hsecond)
    (accesses_fold _ hfirst hsecond (hread hsixteen) (hread height)) ?_
  rfl

theorem windows_strideAccesses (k i : Nat) (l : Lanes) :
    (strideAccesses kernel key k i l).filterMap Step.window? = strideWindows k i := by
  induction k generalizing i l with
  | zero => rfl
  | succ k ih =>
    rw [strideAccesses, List.filterMap_append, ih]
    rfl

theorem length_folds_strideAccesses (k i : Nat) (l : Lanes) :
    ((strideAccesses kernel key k i l).filter Step.isFold).length = 2 * k := by
  induction k generalizing i l with
  | zero => rfl
  | succ k ih =>
    rw [strideAccesses, List.filter_append, List.length_append, ih, Nat.mul_succ, Nat.add_comm]
    rfl

/-- The strides fold the words of their windows. -/
theorem data_strideAccesses {k i : Nat} (hfits : i + 16 * k < 2 ^ 64) (l : Lanes) :
    (strideAccesses kernel key k i l).filterMap Step.datum? =
      (strideWindows k i).map fun w => key.wordAt w.2 w.1.toNat := by
  induction k generalizing i l with
  | zero => rfl
  | succ k ih =>
    have hpair : (l.accesses (i, i + 8) (strideWords key i)).filterMap Step.datum? =
        [key.wordAt 8 i, key.wordAt 8 (i + 8)] := rfl
    rw [strideAccesses, List.filterMap_append, ih (by omega), strideWindows, List.map_append, hpair,
      List.map_cons, List.map_singleton, toNat_ofNat (by omega), toNat_ofNat (by omega)]

/-! ## Long keys -/

theorem length_folds_samplePair (n chunk pos1 pos2 pair : UInt64) (l : Lanes) :
    ((samplePair n chunk pos1 pos2 pair l).folds kernel key).length = 2 := rfl

theorem length_folds_sampleLast (n chunk pos1 pos2 : UInt64) (l : Lanes) :
    ((sampleLast n chunk pos1 pos2 l).folds kernel key).length = 2 := rfl

/-- The length, eight pairs of samples, the two ends and the sum of the lanes. -/
theorem length_folds_long (n : UInt64) (t : OffsetTable) :
    ((long n t).folds kernel key).length = 20 := by
  rw [long, folds_bind, folds_bind, folds_bind, folds_bind, List.length_append, List.length_append,
    List.length_append, List.length_append,
    length_folds_foldlM fun l pair => length_folds_samplePair n _ _ _ pair l,
    length_folds_sampleLast]
  rfl

/-! ## All keys -/

theorem folds_eq_folds_recipe (hpos : 0 < key.size) (kernel : Kernel) (t : OffsetTable) :
    folds kernel t key = (recipe key.length64 t).folds kernel key := by
  have hempty : ¬ key.isEmpty := fun h => by simp [Array.isEmpty_iff.1 h] at hpos
  rw [folds, if_neg hempty]

theorem accesses_of_short (hfour : 4 ≤ key.size) (hshort : key.size < 16) (t : OffsetTable) :
    (recipe key.length64 t).accesses kernel key = shortAccesses kernel key := by
  have hkey : key.size < 2 ^ 64 := by omega
  rw [recipe, Key.toNat_length64 hkey, Band.ofLength?_eq_short_iff.2 ⟨hfour, hshort⟩]
  exact accesses_short hfour hkey

theorem accesses_of_medium (hsixteen : 16 ≤ key.size) (hmedium : key.size < 128)
    (t : OffsetTable) :
    (recipe key.length64 t).accesses kernel key = mediumAccesses kernel key := by
  have hkey : key.size < 2 ^ 64 := by omega
  rw [recipe, Key.toNat_length64 hkey, Band.ofLength?_eq_medium_iff.2 ⟨hsixteen, hmedium⟩]
  exact accesses_medium hsixteen hmedium

section

variable (kernel : Kernel) (t : OffsetTable)

theorem folds_of_tiny (htiny : key.size < 4) : folds kernel t key = [] := by
  have hkey : key.size < 2 ^ 64 := by omega
  by_cases hpos : 0 < key.size
  · rw [folds_eq_folds_recipe hpos, recipe, Key.toNat_length64 hkey,
      Band.ofLength?_eq_tiny_iff.2 ⟨hpos, htiny⟩]
    rfl
  · rw [folds, if_pos (by simpa using hpos)]

theorem folds_of_short (hfour : 4 ≤ key.size) (hshort : key.size < 16) :
    folds kernel t key = (shortAccesses kernel key).filter Step.isFold := by
  rw [folds_eq_folds_recipe (by omega), folds_eq_filter_accesses, accesses_of_short hfour hshort]

theorem folds_of_medium (hsixteen : 16 ≤ key.size) (hmedium : key.size < 128) :
    folds kernel t key = (mediumAccesses kernel key).filter Step.isFold := by
  rw [folds_eq_folds_recipe (by omega), folds_eq_filter_accesses,
    accesses_of_medium hsixteen hmedium]

theorem folds_of_long (hlong : 128 ≤ key.size) (hkey : key.size < 2 ^ 64) :
    folds kernel t key = (long key.length64 t).folds kernel key := by
  rw [folds_eq_folds_recipe (by omega), recipe, Key.toNat_length64 hkey,
    Band.ofLength?_eq_long_iff.2 hlong]
  rfl

theorem length_folds (hkey : key.size < 2 ^ 64) :
    (folds kernel t key).length =
      if key.size < 4 then 0
      else if key.size < 16 then 3
      else if key.size < 128 then 4 + 2 * ((key.size - 16) ⌈/⌉ 16)
      else 20 := by
  split_ifs with htiny hshort hmedium
  · rw [folds_of_tiny kernel t htiny, List.length_nil]
  · rw [folds_of_short kernel t (by omega) hshort, shortAccesses]
    split <;> rfl
  · rw [folds_of_medium kernel t (by omega) hmedium, mediumAccesses, List.filter_cons_of_pos rfl,
      List.filter_append, List.length_cons, List.length_append, length_folds_strideAccesses,
      strideCount_eq_ceilDiv (by omega)]
    exact Nat.add_comm _ 4
  · rw [folds_of_long kernel t (by omega) hkey, length_folds_long]

/-- Where anything is folded, the length comes first. -/
theorem head?_folds (hfour : 4 ≤ key.size) (hkey : key.size < 2 ^ 64) :
    (folds kernel t key).head? = some (.fold32 0 (.ofNat key.size)) := by
  by_cases hshort : key.size < 16
  · rw [folds_of_short kernel t hfour hshort, shortAccesses]
    split <;> rfl
  by_cases hmedium : key.size < 128
  · rw [folds_of_medium kernel t (by omega) hmedium]
    rfl
  · rw [folds_of_long kernel t (by omega) hkey, ← toUInt32_length64]
    rfl

/-! ## What the folds cover -/

theorem windows_of_short (hfour : 4 ≤ key.size) (hshort : key.size < 16) :
    ((recipe key.length64 t).trace kernel key).filterMap Step.window? =
      [(.ofNat 0, shortWidth key.size),
        (.ofNat (key.size - shortWidth key.size), shortWidth key.size)] := by
  rw [windows_eq_filterMap_accesses, accesses_of_short hfour hshort, shortAccesses, shortWidth]
  split <;> rfl

theorem windows_of_medium (hsixteen : 16 ≤ key.size) (hmedium : key.size < 128) :
    ((recipe key.length64 t).trace kernel key).filterMap Step.window? =
      strideWindows (strideCount key.size) 0 ++
        [(.ofNat (key.size - 16), 8), (.ofNat (key.size - 8), 8)] := by
  rw [windows_eq_filterMap_accesses, accesses_of_medium hsixteen hmedium, mediumAccesses,
    List.filterMap_cons_none rfl, List.filterMap_append, windows_strideAccesses]
  rfl

/-- The 64-bit folds of a short key take in the words of its windows. -/
theorem data_of_short (hfour : 4 ≤ key.size) (hshort : key.size < 16) :
    (folds kernel t key).filterMap Step.datum? =
      (((recipe key.length64 t).trace kernel key).filterMap Step.window?).map
        fun w => key.wordAt w.2 w.1.toNat := by
  have hle := shortWidth_le hfour
  have hdata : (shortAccesses kernel key).filterMap Step.datum? =
      [(shortWords key).1, (shortWords key).2] := by
    rw [shortAccesses]
    split <;> rfl
  rw [folds_eq_folds_recipe (by omega), data_eq_filterMap_accesses,
    accesses_of_short hfour hshort, hdata, windows_of_short kernel t hfour hshort, List.map_cons,
    List.map_singleton, toNat_ofNat (by omega), toNat_ofNat (by omega), shortWords_eq hfour]

/-- So do those of a medium key. -/
theorem data_of_medium (hsixteen : 16 ≤ key.size) (hmedium : key.size < 128) :
    (folds kernel t key).filterMap Step.datum? =
      (((recipe key.length64 t).trace kernel key).filterMap Step.window?).map
        fun w => key.wordAt w.2 w.1.toNat := by
  have hcount : strideCount key.size = (key.size - 1) / 16 := rfl
  rw [folds_eq_folds_recipe (by omega), data_eq_filterMap_accesses,
    accesses_of_medium hsixteen hmedium, windows_of_medium kernel t hsixteen hmedium,
    mediumAccesses, List.filterMap_cons_none rfl, List.filterMap_append,
    data_strideAccesses (by omega), List.map_append, List.map_cons, List.map_singleton,
    toNat_ofNat (by omega), toNat_ofNat (by omega)]
  rfl

end

/-- Byte `i` of a key of `n` bytes, 4 to 127 of them, lies both in the first and in the last word,
or both in the strides and in the last sixteen bytes. -/
def ReadTwice (n i : Nat) : Prop :=
  if n < 16 then n - shortWidth n ≤ i ∧ i < shortWidth n
  else n - 16 ≤ i ∧ i < 16 * ((n - 16) ⌈/⌉ 16)

instance (n i : Nat) : Decidable (ReadTwice n i) := inferInstanceAs (Decidable (ite ..))

theorem timesRead_short {n i : Nat} (hfour : 4 ≤ n) (hshort : n < 16) (hi : i < n) :
    timesRead [(.ofNat 0, shortWidth n), (.ofNat (n - shortWidth n), shortWidth n)] i =
      if ReadTwice n i then 2 else 1 := by
  have hwidth : shortWidth n = if 8 ≤ n then 8 else 4 := rfl
  rw [timesRead_pair (by omega) (by omega)]
  simp only [ReadTwice, if_pos hshort]
  split_ifs at hwidth ⊢ <;> omega

theorem timesRead_medium {n i : Nat} (hsixteen : 16 ≤ n) (hmedium : n < 128) (hi : i < n) :
    timesRead (strideWindows (strideCount n) 0 ++ [(.ofNat (n - 16), 8), (.ofNat (n - 8), 8)]) i =
      if ReadTwice n i then 2 else 1 := by
  have hcount : strideCount n = (n - 1) / 16 := rfl
  rw [timesRead_append, timesRead_strideWindows (by omega), timesRead_pair (by omega) (by omega)]
  simp only [ReadTwice, if_neg (Nat.not_lt.2 hsixteen), ← strideCount_eq_ceilDiv hsixteen]
  split_ifs <;> omega

/-- **Few folds, and short keys as a whole.** On every kernel and with every table, the number of
folds that make a digest depends on the length of the key only and is never above twenty. The first
one, if there is any, folds the length into the zero register. The words folded for a key of 4 to
127 bytes are those of its windows, which hold every byte once or twice: twice those in both words
of a short key, and those of a medium key that are in the strides and in the last sixteen bytes. -/
theorem folds_cover_key (kernel : Kernel) (t : OffsetTable) (key : Key)
    (hkey : key.size < 2 ^ 64) :
    let n := key.size
    let folded := folds kernel t key
    let reads := ((recipe key.length64 t).trace kernel key).filterMap Step.window?
    (folded.length =
      if n < 4 then 0 else if n < 16 then 3
      else if n < 128 then 4 + 2 * ((n - 16) ⌈/⌉ 16) else 20) ∧
    folded.length ≤ 20 ∧
    (folded ≠ [] → folded.head? = some (.fold32 0 (.ofNat n))) ∧
    (4 ≤ n → n < 128 →
      folded.filterMap Step.datum? = (reads.map fun w => key.wordAt w.2 w.1.toNat) ∧
      ∀ i < n, 1 ≤ timesRead reads i ∧ timesRead reads i ≤ 2 ∧
        (timesRead reads i = 2 ↔ ReadTwice n i)) := by
  intro n folded reads
  have hlength := length_folds kernel t hkey
  refine ⟨hlength, ?_, ?_, ?_⟩
  · rw [hlength, Nat.ceilDiv_eq_add_pred_div]
    split_ifs <;> omega
  · intro hne
    apply head?_folds kernel t _ hkey
    by_contra hfour
    exact hne (folds_of_tiny kernel t (Nat.lt_of_not_le hfour))
  · intro hfour hmedium
    have hread : folded.filterMap Step.datum? = (reads.map fun w => key.wordAt w.2 w.1.toNat) ∧
        ∀ i < n, timesRead reads i = if ReadTwice n i then 2 else 1 := by
      by_cases hshort : n < 16
      · refine ⟨data_of_short kernel t hfour hshort, fun i hi => ?_⟩
        rw [← timesRead_short hfour hshort hi, ← windows_of_short kernel t hfour hshort]
      · have hsixteen : 16 ≤ n := Nat.le_of_not_lt hshort
        refine ⟨data_of_medium kernel t hsixteen hmedium, fun i hi => ?_⟩
        rw [← timesRead_medium hsixteen hmedium hi, ← windows_of_medium kernel t hsixteen hmedium]
    refine ⟨hread.1, fun i hi => ?_⟩
    rw [hread.2 i hi]
    by_cases htwice : ReadTwice n i <;> simp [htwice]

/-- In a key of 41 bytes two strides end at byte 32 and the tail begins at byte 25. -/
theorem folds_cover_key_41 :
    let key : Key := Array.replicate 41 7
    let reads := ((recipe key.length64 .zero).trace .hardware key).filterMap Step.window?
    key.size < 2 ^ 64 ∧ (folds .hardware .zero key).length = 8 ∧
    (folds .hardware .zero key).head? = some (.fold32 0 41) ∧
    timesRead reads 24 = 1 ∧ timesRead reads 25 = 2 ∧ timesRead reads 31 = 2 := by
  intro key reads
  have hsize : key.size = 41 := Array.size_replicate
  have hkey : key.size < 2 ^ 64 := by omega
  obtain ⟨hlength, -, hhead, hcover⟩ := folds_cover_key .hardware .zero key hkey
  rw [hsize] at hlength hhead hcover
  have hne : folds .hardware .zero key ≠ [] := by
    intro h
    rw [h] at hlength
    exact absurd hlength (by decide)
  obtain ⟨-, htimes⟩ := hcover (by decide) (by decide)
  refine ⟨hkey, hlength, hhead hne, ?_, (htimes 25 (by decide)).2.2.2 (by decide),
    (htimes 31 (by decide)).2.2.2 (by decide)⟩
  obtain ⟨hlow, hhigh, htwice⟩ := htimes 24 (by decide)
  have hlt : timesRead reads 24 < 2 := hhigh.lt_of_ne (mt htwice.1 (by decide))
  exact Nat.le_antisymm (Nat.le_of_lt_succ hlt) hlow

end KeyDigest.Banded
