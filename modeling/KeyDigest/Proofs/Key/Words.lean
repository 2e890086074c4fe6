import KeyDigest.Proofs.Recipe.Runs
import KeyDigest.Proofs.Words.Bits

/-!
# The words of a key, bit by bit

A word read from a key has the bits of its window, in the order in which the register takes them
in. So equal words are equal windows, and a change of one byte changes each word that reads it in
one byte.

* `getLsbD_wordAt`: the bits of a word.
* `window?_congr`, `wordAt_congr`, `getElem?_eq_of_wordAt_eq`: equal words are equal windows.
* `wordAt_xor_wordAt_set`: what a change of one byte makes of a word.
* `word32At_setWord32`, `word32At_setWord32_of_disjoint`: the words after a change of one of them.
* `wordAt_xor`: the words of a bytewise sum are the sums of the words.
-/

namespace KeyDigest

open Crc

/-! ## Words of a key -/

namespace Key

open LittleEndian

variable {key key' : Key} {width pos : Nat}

/-- The word in the `width` bytes from `pos` on, zero if they are not all in the key. -/
def wordAt (key : Key) (width pos : Nat) : UInt64 :=
  ((key.window? pos width).map word64).getD 0

theorem wordAt_eight (key : Key) (pos : Nat) : key.wordAt 8 pos = key.word64At pos := rfl

theorem window?_eq_some (h : pos + width ≤ key.size) :
    key.window? pos width = some (key.extract pos (pos + width)).toList := if_pos h

theorem length_extract (h : pos + width ≤ key.size) :
    (key.extract pos (pos + width)).toList.length = width := by
  rw [Array.length_toList, Array.size_extract]
  omega

theorem streamBit_extract (h : pos + width ≤ key.size) (j : Nat) :
    streamBit (key.extract pos (pos + width)).toList j =
      (decide (j < 8 * width) && streamBit key.toList (8 * pos + j)) := by
  have hdiv : (8 * pos + j) / 8 = pos + j / 8 := by omega
  have hmod : (8 * pos + j) % 8 = j % 8 := by omega
  rw [streamBit, streamBit, hdiv, hmod, List.getD_eq_getElem?_getD, List.getD_eq_getElem?_getD,
    Array.getElem?_toList, Array.getElem?_toList, Array.getElem?_extract]
  by_cases hj : j < 8 * width
  · have hlt : j / 8 < min (pos + width) key.size - pos := by omega
    simp [hj, hlt]
  · have hlt : ¬ j / 8 < min (pos + width) key.size - pos := by omega
    simp [hj, hlt]

/-- A word has the bits of its window. -/
theorem getLsbD_wordAt (hwidth : width ≤ 8) (h : pos + width ≤ key.size) (j : Nat) :
    (key.wordAt width pos).toBitVec.getLsbD j =
      (decide (j < 8 * width) && streamBit key.toList (8 * pos + j)) := by
  rw [wordAt, window?_eq_some h, Option.map_some, Option.getD_some,
    toBitVec_word64, getLsbD_bits (by rw [length_extract h]; omega), streamBit_extract h]

theorem toUInt64_word32At (h : pos + 4 ≤ key.size) :
    (key.word32At pos).toUInt64 = key.wordAt 4 pos := by
  apply UInt64.toBitVec_inj.1
  apply BitVec.eq_of_getLsbD_eq
  intro j hj
  rw [getLsbD_wordAt (by decide) h, UInt32.toBitVec_toUInt64, BitVec.getLsbD_setWidth, word32At,
    word32?, window?_eq_some h, Option.map_some, Option.getD_some,
    toBitVec_word32, getLsbD_bits (by rw [length_extract h]), streamBit_extract h]
  simp [hj]

theorem getLsbD_word32At (h : pos + 4 ≤ key.size) {j : Nat} (hj : j < 32) :
    (key.word32At pos).toBitVec.getLsbD j = streamBit key.toList (8 * pos + j) := by
  have hbit := getLsbD_wordAt (by decide) h j
  rw [← toUInt64_word32At h, UInt32.toBitVec_toUInt64, BitVec.getLsbD_setWidth,
    decide_eq_true (by omega), decide_eq_true (by omega), Bool.true_and, Bool.true_and] at hbit
  exact hbit

theorem window?_congr {pos' : Nat} (hin : pos' + width ≤ key'.size ↔ pos + width ≤ key.size)
    (h : ∀ i < width, key'[pos' + i]? = key[pos + i]?) :
    key'.window? pos' width = key.window? pos width := by
  by_cases hfits : pos + width ≤ key.size
  · have hwindow : key'.extract pos' (pos' + width) = key.extract pos (pos + width) := by
      apply Array.ext_getElem?
      intro i
      rw [Array.getElem?_extract, Array.getElem?_extract, Nat.min_eq_left hfits,
        Nat.min_eq_left (hin.2 hfits), Nat.add_sub_cancel_left, Nat.add_sub_cancel_left]
      split
      · next hi => exact h i hi
      · rfl
    rw [window?_eq_some hfits, window?_eq_some (hin.2 hfits), hwindow]
  · rw [window?, window?, if_neg hfits, if_neg (mt hin.1 hfits)]

/-- Equal windows, of one key or of two, hold equal words. -/
theorem wordAt_congr {pos' : Nat} (hin : pos' + width ≤ key'.size ↔ pos + width ≤ key.size)
    (h : ∀ i < width, key'[pos' + i]? = key[pos + i]?) :
    key'.wordAt width pos' = key.wordAt width pos := by
  rw [wordAt, wordAt, window?_congr hin h]

theorem word32At_congr {pos' : Nat} (hin : pos' + 4 ≤ key'.size ↔ pos + 4 ≤ key.size)
    (h : ∀ i < 4, key'[pos' + i]? = key[pos + i]?) : key'.word32At pos' = key.word32At pos := by
  rw [word32At, word32At, word32?, word32?, window?_congr hin h]

theorem getElem?_eq_of_wordAt_eq (hwidth : width ≤ 8) (hin : pos + width ≤ key.size)
    (hsize : key'.size = key.size) (h : key'.wordAt width pos = key.wordAt width pos) {i : Nat}
    (hi : pos ≤ i) (hi' : i < pos + width) : key'[i]? = key[i]? := by
  have hlt : i < key.size := by omega
  have hlt' : i < key'.size := by omega
  rw [Array.getElem?_eq_getElem hlt, Array.getElem?_eq_getElem hlt']
  congr 1
  apply UInt8.toBitVec_inj.1
  apply BitVec.eq_of_getLsbD_eq
  intro j hj
  have hbit : (key'.wordAt width pos).toBitVec.getLsbD (8 * (i - pos) + j) =
      (key.wordAt width pos).toBitVec.getLsbD (8 * (i - pos) + j) := by rw [h]
  have hplace : 8 * pos + (8 * (i - pos) + j) = 8 * i + j := by omega
  have hrange : 8 * (i - pos) + j < 8 * width := by omega
  have hdiv : (8 * i + j) / 8 = i := by omega
  have hmod : (8 * i + j) % 8 = j := by omega
  rw [getLsbD_wordAt hwidth hin, getLsbD_wordAt hwidth (by omega), hplace] at hbit
  simpa [hrange, streamBit, hdiv, hmod, hlt, hlt'] using hbit

/-! ## A change of one byte -/

theorem streamBit_xor_streamBit_set {p : Nat} (hp : p < key.size) (b : UInt8) (i : Nat) :
    (streamBit key.toList i ^^ streamBit (key.set p b hp).toList i) =
      (decide (i / 8 = p) && (key[p] ^^^ b).toBitVec.getLsbD (i % 8)) := by
  rw [streamBit, streamBit, List.getD_eq_getElem?_getD, List.getD_eq_getElem?_getD,
    Array.getElem?_toList, Array.getElem?_toList, Array.getElem?_set]
  by_cases h : i / 8 = p
  · simp [h, hp]
  · simp [h, Ne.symm h]

/-- The words that read the byte change in that byte only, the others do not change. -/
theorem wordAt_xor_wordAt_set (hwidth : width ≤ 8) (h : pos + width ≤ key.size) {p : Nat}
    (hp : p < key.size) (b : UInt8) :
    key.wordAt width pos ^^^ Key.wordAt (key.set p b hp) width pos =
      if pos ≤ p ∧ p < pos + width then placed (key[p] ^^^ b) (p - pos) else 0 := by
  have hset : pos + width ≤ (key.set p b hp).size := by rwa [Array.size_set]
  apply UInt64.toBitVec_inj.1
  apply BitVec.eq_of_getLsbD_eq
  intro j _
  have hdiv : (8 * pos + j) / 8 = pos + j / 8 := by omega
  have hmod : (8 * pos + j) % 8 = j % 8 := by omega
  rw [UInt64.toBitVec_xor, BitVec.getLsbD_xor, getLsbD_wordAt hwidth h, getLsbD_wordAt hwidth hset,
    ← Bool.and_xor_distrib_left, streamBit_xor_streamBit_set, hdiv, hmod]
  split
  · next hin =>
    have hplace : j < 8 * width ∧ pos + j / 8 = p ↔ j / 8 = p - pos := by omega
    rw [getLsbD_placed _ (by omega), ← Bool.and_assoc, ← Bool.decide_and, decide_eq_decide.2 hplace]
  · next hout =>
    have hplace : ¬ (j < 8 * width ∧ pos + j / 8 = p) := by omega
    rw [← Bool.and_assoc, ← Bool.decide_and, decide_eq_false hplace]
    simp

/-! ## A change of one word -/

theorem getElem?_eq_of_word32At_eq (hin : pos + 4 ≤ key.size) (hsize : key'.size = key.size)
    (h : key'.word32At pos = key.word32At pos) {i : Nat} (hi : pos ≤ i) (hi' : i < pos + 4) :
    key'[i]? = key[i]? := by
  apply getElem?_eq_of_wordAt_eq (by decide) hin hsize _ hi hi'
  rw [← toUInt64_word32At hin, ← toUInt64_word32At (by omega), h]

/-- The key with the bytes of `w` in the four bytes from `pos` on. -/
def setWord32 (key : Key) (pos : Nat) (w : UInt32) : Key :=
  key.mapIdx fun i b => if pos ≤ i ∧ i < pos + 4 then (octets32 w).getD (i - pos) 0 else b

@[simp] theorem size_setWord32 (key : Key) (pos : Nat) (w : UInt32) :
    (key.setWord32 pos w).size = key.size := Array.size_mapIdx

theorem getElem?_setWord32_of_outside (w : UInt32) {i : Nat} (h : i < pos ∨ pos + 4 ≤ i) :
    (key.setWord32 pos w)[i]? = key[i]? := by
  have hout : ¬ (pos ≤ i ∧ i < pos + 4) := by omega
  simp [setWord32, hout]

theorem word32At_setWord32 (h : pos + 4 ≤ key.size) (w : UInt32) :
    (key.setWord32 pos w).word32At pos = w := by
  have hword : Key.word32At (octets32 w).toArray 0 = w := word32_octets32 w
  refine Eq.trans (word32At_congr (iff_of_true (by rwa [size_setWord32]) (Nat.le_refl 4)) ?_) hword
  intro i hi
  have hlt : i < (octets32 w).length := hi
  have hin : pos + i < key.size := by omega
  simp [setWord32, hi, hin, List.getElem?_eq_getElem hlt]

/-- The other words keep their bytes. -/
theorem word32At_setWord32_of_disjoint {pos' : Nat} (h : pos' + 4 ≤ pos ∨ pos + 4 ≤ pos')
    (w : UInt32) : (key.setWord32 pos w).word32At pos' = key.word32At pos' :=
  word32At_congr (by rw [size_setWord32]) fun i _ => getElem?_setWord32_of_outside w (by omega)

/-! ## Sums of keys -/

/-- The bytewise sum of two keys, as long as the shorter one. -/
def xor (key key' : Key) : Key := Array.zipWith (· ^^^ ·) key key'

theorem size_xor (hsize : key'.size = key.size) : (key.xor key').size = key.size := by
  rw [xor, Array.size_zipWith, hsize, Nat.min_self]

theorem getElem?_xor (hsize : key'.size = key.size) {i : Nat} (hi : i < key.size) :
    (key.xor key')[i]? = some (key[i] ^^^ key'[i]) := by
  rw [Array.getElem?_eq_getElem (by rwa [size_xor hsize])]
  exact congrArg some (Array.getElem_zipWith ..)

/-- Adding a key twice does nothing. -/
theorem xor_xor_cancel (hsize : key'.size = key.size) : (key.xor key').xor key' = key := by
  have hsum := size_xor hsize
  apply Array.ext_getElem?
  intro i
  by_cases hi : i < key.size
  · have hbyte := getElem?_xor hsize hi
    rw [Array.getElem?_eq_getElem (by omega), Option.some_inj] at hbyte
    rw [getElem?_xor (by omega) (by omega), Array.getElem?_eq_getElem hi, hbyte, UInt8.xor_assoc,
      UInt8.xor_self, UInt8.xor_zero]
  · have hend : key.size ≤ i := Nat.le_of_not_lt hi
    rw [Array.getElem?_eq_none hend, Array.getElem?_eq_none (by rw [size_xor] <;> omega)]

theorem streamBit_xor (hsize : key'.size = key.size) (j : Nat) :
    streamBit (key.xor key').toList j = (streamBit key.toList j ^^ streamBit key'.toList j) := by
  rw [streamBit, streamBit, streamBit, List.getD_eq_getElem?_getD, List.getD_eq_getElem?_getD,
    List.getD_eq_getElem?_getD, Array.getElem?_toList, Array.getElem?_toList,
    Array.getElem?_toList]
  by_cases hj : j / 8 < key.size
  · have hj' : j / 8 < key'.size := by omega
    rw [getElem?_xor hsize hj, Array.getElem?_eq_getElem hj, Array.getElem?_eq_getElem hj',
      Option.getD_some, Option.getD_some, Option.getD_some, UInt8.toBitVec_xor,
      BitVec.getLsbD_xor]
  · have hsum := size_xor hsize
    rw [Array.getElem?_eq_none (by omega), Array.getElem?_eq_none (by omega),
      Array.getElem?_eq_none (by omega)]
    simp

/-- The words of a sum are the sums of the words. -/
theorem wordAt_xor (hwidth : width ≤ 8) (hsize : key'.size = key.size) :
    (key.xor key').wordAt width pos = key.wordAt width pos ^^^ key'.wordAt width pos := by
  have hsum := size_xor hsize
  by_cases h : pos + width ≤ key.size
  · apply UInt64.toBitVec_inj.1
    apply BitVec.eq_of_getLsbD_eq
    intro j _
    rw [UInt64.toBitVec_xor, BitVec.getLsbD_xor, getLsbD_wordAt hwidth (by omega),
      getLsbD_wordAt hwidth h, getLsbD_wordAt hwidth (by omega), streamBit_xor hsize,
      Bool.and_xor_distrib_left]
  · rw [wordAt, wordAt, wordAt, window?, window?, window?, if_neg (by omega), if_neg h,
      if_neg (by omega)]
    rfl

theorem word64At_xor (hsize : key'.size = key.size) :
    (key.xor key').word64At pos = key.word64At pos ^^^ key'.word64At pos :=
  wordAt_xor (by decide) hsize

theorem word32At_xor (hsize : key'.size = key.size) (h : pos + 4 ≤ key.size) :
    (key.xor key').word32At pos = key.word32At pos ^^^ key'.word32At pos := by
  have hsum := size_xor hsize
  apply UInt32.toUInt64_inj.1
  rw [UInt32.toUInt64_xor, toUInt64_word32At (by omega), toUInt64_word32At h,
    toUInt64_word32At (by omega), wordAt_xor (by decide) hsize]

end Key

end KeyDigest
