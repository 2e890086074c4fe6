import KeyDigest.Proofs.Banded.Collapse
import KeyDigest.Proofs.Crc.Burst
import KeyDigest.Proofs.Key.Words

/-!
# What a medium key shows

The lanes of a medium key take in the strides by adding, so they are not one lane. But the tail is
folded into both of them and they meet right after it: the digest sees the sum of the lanes after
the strides, and the sum of the two words of the tail.

**Theorem (`medium_tail_is_a_sum`).** Of two keys that agree where the strides are, the tails
matter by the sum of their words only.

**Theorem (`medium_shows_late_changes`).** A change of at most four neighbouring bytes is never lost
where the key is read once and late: in one word of the tail, or in one word of the last stride.
-/

namespace KeyDigest.Banded

open Crc Sampling

variable {kernel : Kernel} {key key' : Key}

/-! ## Strides -/

/-- What a stride makes of the lanes. -/
def Lanes.addWords (kernel : Kernel) (l : Lanes) (v : UInt64 × UInt64) : Lanes :=
  ⟨l.first + kernel.fold64 l.first v.1, l.second + kernel.fold64 l.second v.2⟩

theorem strideLanes_succ (k i : Nat) (l : Lanes) :
    strideLanes kernel key (k + 1) i l =
      strideLanes kernel key k (i + 16) (l.addWords kernel (strideWords key i)) := rfl

/-- The last stride comes after all others. -/
theorem strideLanes_succ_last (k i : Nat) (l : Lanes) :
    strideLanes kernel key (k + 1) i l =
      (strideLanes kernel key k i l).addWords kernel (strideWords key (i + 16 * k)) := by
  induction k generalizing i l with
  | zero => rfl
  | succ k ih =>
    have hadd : i + 16 + 16 * k = i + 16 * (k + 1) := by omega
    rw [strideLanes_succ, ih, hadd, ← strideLanes_succ]

theorem strideCount_eq_ceilDiv {n : Nat} (hn : 16 ≤ n) : strideCount n = (n - 16) ⌈/⌉ 16 := by
  rw [strideCount, Nat.ceilDiv_eq_add_pred_div]
  omega

/-! ## Keys that agree on a stretch -/

section

variable (hsize : key'.size = key.size)
include hsize

theorem word64At_congr {pos : Nat} (h : ∀ i, pos ≤ i → i < pos + 8 → key'[i]? = key[i]?) :
    key'.word64At pos = key.word64At pos := by
  apply Key.wordAt_congr
  · rw [hsize]
  · intro i hi
    exact h _ (by omega) (by omega)

theorem strideWords_congr {i : Nat} (h : ∀ j, i ≤ j → j < i + 16 → key'[j]? = key[j]?) :
    strideWords key' i = strideWords key i := by
  rw [strideWords, strideWords, word64At_congr hsize fun j hj hj' => h j hj (by omega),
    word64At_congr hsize fun j hj hj' => h j (by omega) (by omega)]

theorem strideLanes_congr {k i : Nat} (h : ∀ j, i ≤ j → j < i + 16 * k → key'[j]? = key[j]?)
    (l : Lanes) : strideLanes kernel key' k i l = strideLanes kernel key k i l := by
  induction k generalizing i l with
  | zero => rfl
  | succ k ih =>
    rw [strideLanes_succ, strideLanes_succ,
      strideWords_congr hsize fun j hj hj' => h j hj (by omega)]
    exact ih (fun j hj hj' => h j (by omega) (by omega)) _

end

/-! ## The lanes and the tail -/

/-- The lanes before the tail. -/
def stridden (key : Key) (k : Nat) : Lanes :=
  strideLanes .software key k 0 ⟨Kernel.software.fold32 0 (.ofNat key.size), 0⟩

def tailSum (key : Key) : UInt64 := (tailWords key).1 ^^^ (tailWords key).2

/-- The tail is folded into the sum of the lanes, by the sum of its words. -/
theorem mediumDigest_eq (key : Key) :
    mediumDigest .software key =
      Kernel.software.fold32
        (Kernel.software.fold64 (stridden key (strideCount key.size)).sum (tailSum key)) 0 := by
  rw [mediumDigest, fold32_eq_fold32_zero]
  exact congrArg (Kernel.software.fold32 · 0) (sum_foldWords _ (tailWords key))

theorem mediumDigest_eq_iff :
    mediumDigest .software key' = mediumDigest .software key ↔
      Kernel.software.fold64 (stridden key' (strideCount key'.size)).sum (tailSum key') =
        Kernel.software.fold64 (stridden key (strideCount key.size)).sum (tailSum key) := by
  rw [mediumDigest_eq, mediumDigest_eq]
  exact (fold32_injective_register 0).eq_iff

theorem stridden_congr (hsize : key'.size = key.size) {k : Nat}
    (h : ∀ i < 16 * k, key'[i]? = key[i]?) : stridden key' k = stridden key k := by
  rw [stridden, stridden, hsize]
  exact strideLanes_congr hsize (fun i _ hi => h i (by omega)) _

theorem digest_eq_iff_of_medium (hkernel : kernel.Documented) (t : OffsetTable)
    (hsixteen : 16 ≤ key.size) (hmedium : key.size < 128) (hsize : key'.size = key.size) :
    digest kernel t key' = digest kernel t key ↔
      mediumDigest .software key' = mediumDigest .software key := by
  have hagree := hkernel.agree Kernel.software_documented
  rw [digest_congr hagree, digest_congr hagree, digest_of_medium (by omega) (by omega),
    digest_of_medium hsixteen hmedium]

theorem digest_eq_of_tailSum_eq (hkernel : kernel.Documented) (t : OffsetTable)
    (hsixteen : 16 ≤ key.size) (hmedium : key.size < 128) (hsize : key'.size = key.size)
    (hstrides : ∀ i < 16 * ((key.size - 16) ⌈/⌉ 16), key'[i]? = key[i]?)
    (htail : tailSum key' = tailSum key) : digest kernel t key' = digest kernel t key := by
  rw [← strideCount_eq_ceilDiv hsixteen] at hstrides
  rw [digest_eq_iff_of_medium hkernel t hsixteen hmedium hsize, mediumDigest_eq_iff, htail, hsize,
    stridden_congr hsize hstrides]

/-! ## Keys put together -/

theorem word64At_append_left {a b : Key} {pos : Nat} (h : pos + 8 ≤ a.size) :
    Key.word64At (a ++ b) pos = a.word64At pos := by
  apply Key.wordAt_congr
  · rw [Array.size_append]
    omega
  · intro i hi
    exact Array.getElem?_append_left (by omega)

theorem word64At_append_right (a b : Key) (pos : Nat) :
    Key.word64At (a ++ b) (a.size + pos) = b.word64At pos := by
  apply Key.wordAt_congr
  · rw [Array.size_append]
    omega
  · intro i hi
    rw [Array.getElem?_append_right (by omega)]
    congr 1
    omega

/-- The tail of a key that ends in two words. -/
theorem tailSum_append (head : Key) {u v : Key} (hu : u.size = 8) (hv : v.size = 8) :
    tailSum (head ++ u ++ v) = u.word64At 0 ^^^ v.word64At 0 := by
  have hfirst : Array.size (head ++ u ++ v) - 16 = head.size + 0 := by
    rw [Array.size_append, Array.size_append]
    omega
  have hlast : Array.size (head ++ u ++ v) - 8 = Array.size (head ++ u) + 0 := by
    rw [Array.size_append, Array.size_append]
    omega
  rw [tailSum, tailWords, hfirst, hlast, word64At_append_right,
    word64At_append_left (by rw [Array.size_append]; omega), word64At_append_right]

/-- Keys of whole strides and a tail of two words. -/
theorem digest_append_eq (hkernel : kernel.Documented) (t : OffsetTable) (head : Key)
    {u v u' v' : Key}
    (hhead : 16 ∣ head.size) (hmedium : head.size + 16 < 128) (hu : u.size = 8) (hv : v.size = 8)
    (hu' : u'.size = 8) (hv' : v'.size = 8)
    (hsum : u'.word64At 0 ^^^ v'.word64At 0 = u.word64At 0 ^^^ v.word64At 0) :
    digest kernel t (head ++ u' ++ v') = digest kernel t (head ++ u ++ v) := by
  have hsize {u v : Key} (hu : u.size = 8) (hv : v.size = 8) :
      Array.size (head ++ u ++ v) = head.size + 16 := by
    rw [Array.size_append, Array.size_append]
    omega
  apply digest_eq_of_tailSum_eq hkernel t
  · rw [hsize hu hv]
    omega
  · rwa [hsize hu hv]
  · rw [hsize hu hv, hsize hu' hv']
  · intro i hi
    rw [hsize hu hv, Nat.ceilDiv_eq_add_pred_div] at hi
    rw [Array.append_assoc, Array.append_assoc, Array.getElem?_append_left (by omega),
      Array.getElem?_append_left (by omega)]
  · rw [tailSum_append head hu' hv', tailSum_append head hu hv, hsum]

/-- **The tail of a medium key is a sum.** On every kernel that folds as documented, two keys of one
length from 16 to 127 that agree on the bytes of the strides have the same digest if their last two
words have the same sum. So the order of the last two words does not matter in a key that is made
of whole strides, and a key of one word said twice has the digest of every other such key. -/
theorem medium_tail_is_a_sum (hkernel : kernel.Documented) (t : OffsetTable) :
    (∀ key key' : Key, 16 ≤ key.size → key.size < 128 → key'.size = key.size →
      (∀ i < 16 * ((key.size - 16) ⌈/⌉ 16), key'[i]? = key[i]?) →
      key'.word64At (key.size - 16) ^^^ key'.word64At (key.size - 8) =
        key.word64At (key.size - 16) ^^^ key.word64At (key.size - 8) →
      digest kernel t key' = digest kernel t key) ∧
    (∀ u v : Key, u.size = 8 → v.size = 8 → digest kernel t (v ++ u) = digest kernel t (u ++ v)) ∧
    (∀ head u v : Key, 16 ∣ head.size → head.size + 16 < 128 → u.size = 8 → v.size = 8 →
      digest kernel t (head ++ v ++ u) = digest kernel t (head ++ u ++ v)) ∧
    ∀ w w' : Key, w.size = 8 → w'.size = 8 →
      digest kernel t (w' ++ w') = digest kernel t (w ++ w) := by
  have hswap : ∀ head u v : Key, 16 ∣ head.size → head.size + 16 < 128 → u.size = 8 → v.size = 8 →
      digest kernel t (head ++ v ++ u) = digest kernel t (head ++ u ++ v) := by
    intro head u v hhead hmedium hu hv
    exact digest_append_eq hkernel t head hhead hmedium hu hv hv hu (UInt64.xor_comm _ _)
  refine ⟨?_, ?_, hswap, ?_⟩
  · intro key key' hsixteen hmedium hsize hstrides htail
    apply digest_eq_of_tailSum_eq hkernel t hsixteen hmedium hsize hstrides
    rwa [tailSum, tailSum, tailWords, tailWords, hsize]
  · intro u v hu hv
    simpa using hswap #[] u v (by simp) (by simp) hu hv
  · intro w w' hw hw'
    have hsum : w'.word64At 0 ^^^ w'.word64At 0 = w.word64At 0 ^^^ w.word64At 0 := by
      rw [UInt64.xor_self, UInt64.xor_self]
    have h := digest_append_eq hkernel t #[] (by simp) (by simp) hw hw hw' hw' hsum
    rwa [Array.empty_append, Array.empty_append] at h

/-- A change in the last word of a key of 25 bytes, made good in the word before it. -/
theorem medium_tail_is_a_sum_25 :
    Kernel.hardware.Documented ∧
    digest .hardware .zero
        #[0, 0, 0, 0, 0, 0, 0, 0, 0, 0, 0, 0, 0, 0, 0, 0, 5, 0, 0, 0, 0, 0, 0, 0, 5] =
      digest .hardware .zero
        #[0, 0, 0, 0, 0, 0, 0, 0, 0, 0, 0, 0, 0, 0, 0, 0, 0, 0, 0, 0, 0, 0, 0, 0, 0] ∧
    digest .hardware .zero (#[8, 7, 6, 5, 4, 3, 2, 1] ++ #[1, 2, 3, 4, 5, 6, 7, 8]) =
      digest .hardware .zero (#[1, 2, 3, 4, 5, 6, 7, 8] ++ #[8, 7, 6, 5, 4, 3, 2, 1]) := by
  obtain ⟨hsum, hswap, -⟩ := medium_tail_is_a_sum Kernel.hardware_documented .zero
  refine ⟨Kernel.hardware_documented, ?_, hswap _ _ rfl rfl⟩
  exact hsum _ _ (by decide) (by decide) rfl (by decide) (by decide)

/-! ## Changes that are read once and late -/

section

variable {start stop : Nat} (hsize : key'.size = key.size)
variable (hrun : ∀ i, key'[i]? ≠ key[i]? → start ≤ i ∧ i < stop) (hshort : stop ≤ start + 4)
variable (hne : key' ≠ key)
include hrun

theorem getElem?_eq_of_outside {i : Nat} (h : i < start ∨ stop ≤ i) : key'[i]? = key[i]? := by
  by_contra hi
  obtain ⟨hlow, hhigh⟩ := hrun i hi
  omega

include hsize

/-- A word that does not reach into the run does not change. -/
theorem word64At_eq_of_outside (pos : Nat) (h : pos + 8 ≤ start ∨ stop ≤ pos) :
    key'.word64At pos = key.word64At pos :=
  word64At_congr hsize fun i hi hi' => getElem?_eq_of_outside hrun (by omega)

include hshort

theorem differWithin_word64At {pos : Nat} (hin : pos + 8 ≤ key.size) :
    DifferWithin 32 (key'.word64At pos).toBitVec.getLsbD (key.word64At pos).toBitVec.getLsbD := by
  refine ⟨8 * (start - pos), fun j hj => ?_⟩
  rw [← Key.wordAt_eight, ← Key.wordAt_eight, Key.getLsbD_wordAt (by decide) (by omega),
    Key.getLsbD_wordAt (by decide) hin] at hj
  have hbyte : key'[(8 * pos + j) / 8]? ≠ key[(8 * pos + j) / 8]? := by
    intro h
    rw [streamBit, streamBit, List.getD_eq_getElem?_getD, List.getD_eq_getElem?_getD,
      Array.getElem?_toList, Array.getElem?_toList, h] at hj
    exact hj rfl
  obtain ⟨hlow, hhigh⟩ := hrun _ hbyte
  omega

include hne

/-- A fold of the word with the run does, also under a sum with another word. -/
theorem fold64_ne_of_inside {pos : Nat} (hin : pos + 8 ≤ key.size) (hlow : pos ≤ start)
    (hhigh : stop ≤ pos + 8) (r : UInt32) (w : UInt64) :
    Kernel.software.fold64 r (key'.word64At pos ^^^ w) ≠
      Kernel.software.fold64 r (key.word64At pos ^^^ w) := by
  apply fold64_ne_of_differWithin
  · intro h
    apply hne
    apply Array.ext_getElem?
    intro i
    by_cases hi : pos ≤ i ∧ i < pos + 8
    · exact Key.getElem?_eq_of_wordAt_eq (by decide) hin hsize ((UInt64.xor_left_inj w).1 h)
        hi.1 hi.2
    · exact getElem?_eq_of_outside hrun (by omega)
  · obtain ⟨place, hplace⟩ := differWithin_word64At hsize hrun hshort hin
    refine ⟨place, fun j hj => hplace j fun h => hj ?_⟩
    rw [UInt64.toBitVec_xor, UInt64.toBitVec_xor, BitVec.getLsbD_xor, BitVec.getLsbD_xor, h]

/-- In the tail: the lanes before it are the same, and one of its words changes. -/
theorem mediumDigest_ne_of_tail (hsixteen : 16 ≤ key.size)
    (hlow : 16 * strideCount key.size ≤ start)
    (hword : key.size - 16 ≤ start ∧ stop ≤ key.size - 8 ∨
      key.size - 8 ≤ start ∧ stop ≤ key.size) :
    mediumDigest .software key' ≠ mediumDigest .software key := by
  rw [Ne, mediumDigest_eq_iff, hsize,
    stridden_congr hsize fun i hi => getElem?_eq_of_outside hrun (by omega)]
  rcases hword with ⟨hfrom, hto⟩ | ⟨hfrom, hto⟩
  · have hlast := word64At_eq_of_outside hsize hrun (key.size - 8) (by omega)
    rw [tailSum, tailSum, tailWords, tailWords, hsize, hlast]
    exact fold64_ne_of_inside hsize hrun hshort hne (by omega) hfrom (by omega) _ _
  · have hfirst := word64At_eq_of_outside hsize hrun (key.size - 16) (by omega)
    rw [tailSum, tailSum, tailWords, tailWords, hsize, hfirst, UInt64.xor_comm,
      UInt64.xor_comm (key.word64At _)]
    exact fold64_ne_of_inside hsize hrun hshort hne (by omega) hfrom (by omega) _ _

/-- In the last stride: the lanes before it and the tail are the same, and one lane changes. -/
theorem mediumDigest_ne_of_lastStride {k : Nat} (hcount : strideCount key.size = k + 1)
    (htail : stop ≤ key.size - 16)
    (hword : 16 * k ≤ start ∧ stop ≤ 16 * k + 8 ∨ 16 * k + 8 ≤ start ∧ stop ≤ 16 * (k + 1)) :
    mediumDigest .software key' ≠ mediumDigest .software key := by
  have hfits : 16 * (k + 1) < key.size := by
    rw [strideCount] at hcount
    omega
  have hfirst := word64At_eq_of_outside hsize hrun (key.size - 16) (by omega)
  have hlast := word64At_eq_of_outside hsize hrun (key.size - 8) (by omega)
  have hbefore : stridden key' k = stridden key k :=
    stridden_congr hsize fun i hi => getElem?_eq_of_outside hrun (by omega)
  have hnext (key : Key) : stridden key (k + 1) =
      (stridden key k).addWords .software (strideWords key (16 * k)) := by
    rw [stridden, strideLanes_succ_last, Nat.zero_add]
    rfl
  rw [Ne, mediumDigest_eq_iff, hsize, hcount, tailSum, tailSum, tailWords, tailWords, hsize, hfirst,
    hlast, (fold64_injective_register _).eq_iff, hnext key', hnext key, hbefore]
  generalize stridden key k = l
  rcases hword with ⟨hfrom, hto⟩ | ⟨hfrom, hto⟩
  · have hother := word64At_eq_of_outside hsize hrun (16 * k + 8) (by omega)
    have hfold := fold64_ne_of_inside hsize hrun hshort hne (by omega) hfrom hto l.first 0
    rw [UInt64.xor_zero, UInt64.xor_zero] at hfold
    rw [strideWords, strideWords, hother]
    exact fun h => hfold ((UInt32.add_right_inj _).1 ((UInt32.xor_left_inj _).1 h))
  · have hother := word64At_eq_of_outside hsize hrun (16 * k) (by omega)
    have hfold := fold64_ne_of_inside hsize hrun hshort hne (by omega) hfrom (by omega) l.second 0
    rw [UInt64.xor_zero, UInt64.xor_zero] at hfold
    rw [strideWords, strideWords, hother]
    exact fun h => hfold ((UInt32.add_right_inj _).1 ((UInt32.xor_right_inj _).1 h))

end

/-- From `start` up to `stop`, a medium key of `n` bytes is read once and late: in one word of the
tail, after the strides, or in one word of the last stride, before the tail. -/
def ReadLate (n start stop : Nat) : Prop :=
  let k := (n - 16) ⌈/⌉ 16
  (16 * k ≤ start ∧ (n - 16 ≤ start ∧ stop ≤ n - 8 ∨ n - 8 ≤ start ∧ stop ≤ n)) ∨
    (1 ≤ k ∧ stop ≤ n - 16 ∧ (16 * (k - 1) ≤ start ∧ stop ≤ 16 * (k - 1) + 8 ∨
      16 * (k - 1) + 8 ≤ start ∧ stop ≤ 16 * k))

/-- Where there are no strides but the tail, or one stride and the tail, every byte is read late. -/
theorem readLate_of_whole {n p : Nat} (hn : n = 16 ∨ n = 32) (hp : p < n) :
    ReadLate n p (p + 1) := by
  rw [ReadLate, Nat.ceilDiv_eq_add_pred_div]
  omega

/-- **Late changes of a medium key are not lost.** On every kernel that folds as documented, two
different keys of one length from 16 to 127 that differ only within four neighbouring bytes, all
read once and late, have different digests. At lengths 16 and 32 this is so for every change of one
byte. -/
theorem medium_shows_late_changes (hkernel : kernel.Documented) (t : OffsetTable) :
    (∀ key key' : Key, 16 ≤ key.size → key.size < 128 → key'.size = key.size → key' ≠ key →
      ∀ start stop, stop ≤ start + 4 → ReadLate key.size start stop →
        (∀ i, key'[i]? ≠ key[i]? → start ≤ i ∧ i < stop) →
          digest kernel t key' ≠ digest kernel t key) ∧
    ∀ key : Key, key.size = 16 ∨ key.size = 32 → ∀ (p : Nat) (hp : p < key.size) (b : UInt8),
      b ≠ key[p] → digest kernel t (key.set p b hp) ≠ digest kernel t key := by
  have hruns : ∀ key key' : Key, 16 ≤ key.size → key.size < 128 → key'.size = key.size →
      key' ≠ key → ∀ start stop, stop ≤ start + 4 → ReadLate key.size start stop →
        (∀ i, key'[i]? ≠ key[i]? → start ≤ i ∧ i < stop) →
          digest kernel t key' ≠ digest kernel t key := by
    intro key key' hsixteen hmedium hsize hne start stop hshort hlate hrun
    rw [Ne, digest_eq_iff_of_medium hkernel t hsixteen hmedium hsize]
    rw [ReadLate, ← strideCount_eq_ceilDiv hsixteen] at hlate
    rcases hlate with ⟨hlow, hword⟩ | ⟨hone, htail, hword⟩
    · exact mediumDigest_ne_of_tail hsize hrun hshort hne hsixteen hlow hword
    · obtain ⟨k, hk⟩ := Nat.exists_eq_add_of_le' hone
      rw [hk, Nat.add_sub_cancel] at hword
      exact mediumDigest_ne_of_lastStride hsize hrun hshort hne hk htail hword
  refine ⟨hruns, ?_⟩
  intro key hn p hp b hb
  have hset : (key.set p b hp)[p]? ≠ key[p]? := by
    rw [Array.getElem?_set_self, Array.getElem?_eq_getElem hp]
    exact fun h => hb (Option.some.inj h)
  apply hruns key _ (by omega) (by omega) (Array.size_set ..) (fun h => hset (by rw [h])) p (p + 1)
    (by omega) (readLate_of_whole hn hp)
  intro i hi
  by_contra hout
  exact hi (Array.getElem?_set_ne hp (by omega))

/-- Two bytes of the last stride, three places apart, right before the tail. -/
theorem medium_shows_late_changes_40 :
    Kernel.hardware.Documented ∧ ReadLate 40 20 24 ∧
    digest .hardware .zero (((Array.replicate 40 0).set 20 1 (by simp)).set 23 7 (by simp)) ≠
      digest .hardware .zero (Array.replicate 40 0) ∧
    digest .hardware .zero ((Array.replicate 32 0).set 5 1 (by simp)) ≠
      digest .hardware .zero (Array.replicate 32 0) := by
  have hlate : ReadLate 40 20 24 := by
    rw [ReadLate, Nat.ceilDiv_eq_add_pred_div]
    omega
  obtain ⟨hruns, hbyte⟩ := medium_shows_late_changes Kernel.hardware_documented .zero
  refine ⟨Kernel.hardware_documented, hlate, ?_, ?_⟩
  · apply hruns (Array.replicate 40 0) _ (by simp) (by simp) (by simp) (by decide) 20 24 (by decide)
    · rwa [Array.size_replicate]
    · intro i hi
      by_contra hout
      apply hi
      rw [Array.getElem?_set_ne _ (by omega), Array.getElem?_set_ne _ (by omega)]
  · exact hbyte (Array.replicate 32 0) (Or.inr (by simp)) 5 (by simp) 1 (by simp)

end KeyDigest.Banded
