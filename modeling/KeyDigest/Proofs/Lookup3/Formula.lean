import KeyDigest.Proofs.Recipe.Runs
import KeyDigest.Lookup3

/-!
# The portable digest as a formula

The recipe of the portable digest never leaves the key or the 64-bit range, and what it computes is
a formula in the words, or bytes, at four positions of the key.
-/

namespace KeyDigest.Lookup3

open Recipe

variable {kernel : Kernel} {key : Key}

/-- The digest of a key of one to three bytes, from its first, last and middle byte. -/
def tinyDigest (key : Key) : UInt32 :=
  let h := .ofNat key.size ^^^ (key.octetAt (key.size - 1)).toUInt32
  let b := (key.octetAt (key.size / 2)).toUInt32
  Mixing.finish (key.octetAt 0).toUInt32 b (Mixing.round h b 14)

/-- The digest of a key of four bytes and more, from its first and last word and the words that
begin two bytes before the middle and one before the quarter. -/
def wordsDigest (key : Key) : UInt32 :=
  let h := .ofNat key.size ^^^ key.word32At (key.size - 4)
  let b := key.word32At (key.size / 2 - 2)
  Mixing.finish (key.word32At 0) (b + key.word32At (key.size / 4 - 1)) (Mixing.round h b 14)

theorem length64_half (hkey : key.size < 2 ^ 64) :
    key.length64 >>> 1 = .ofNat (key.size / 2) :=
  ofNat_shiftRight (b := 1) hkey (by decide)

theorem length64_quarter (hkey : key.size < 2 ^ 64) :
    key.length64 >>> 2 = .ofNat (key.size / 4) :=
  ofNat_shiftRight (b := 2) hkey (by decide)

theorem four_le_length64_iff (hkey : key.size < 2 ^ 64) : 4 ≤ key.length64 ↔ 4 ≤ key.size :=
  UInt64.ofNat_le_iff_le (a := 4) (by decide) hkey

theorem run?_tiny (hpos : 0 < key.size) (hkey : key.size < 2 ^ 64) :
    (tiny key.length64).run? kernel key = some (tinyDigest key) := by
  rw [tiny, length64_half hkey, toUInt32_length64]
  refine run?_bind_eq_some (run?_octet (p := 0) hkey hpos) ?_
  refine run?_bind_eq_some (run?_subFloor (b := 1) hkey (by decide)) ?_
  refine run?_bind_eq_some (run?_octet hkey (by omega)) ?_
  refine run?_bind_eq_some (run?_octet hkey (by omega)) ?_
  exact run?_pure (tinyDigest key)

theorem run?_words (hfour : 4 ≤ key.size) (hkey : key.size < 2 ^ 64) :
    (words key.length64).run? kernel key = some (wordsDigest key) := by
  rw [words, length64_half hkey, length64_quarter hkey, toUInt32_length64]
  refine run?_bind_eq_some (run?_word32 (p := 0) hkey (by omega)) ?_
  refine run?_bind_eq_some (run?_sub (b := 4) hfour hkey) ?_
  refine run?_bind_eq_some (run?_word32 hkey (by omega)) ?_
  refine run?_bind_eq_some (run?_sub (b := 2) (by omega) (by omega)) ?_
  refine run?_bind_eq_some (run?_word32 hkey (by omega)) ?_
  refine run?_bind_eq_some (run?_sub (b := 1) (by omega) (by omega)) ?_
  refine run?_bind_eq_some (run?_word32 hkey (by omega)) ?_
  exact run?_pure (wordsDigest key)

/-- **The portable digest of every key stays inside**, the empty one included. -/
theorem run?_recipe (hkey : key.size < 2 ^ 64) :
    (recipe key.length64).run? kernel key =
      some (if 4 ≤ key.size then wordsDigest key
        else if 0 < key.size then tinyDigest key else emptyDigest) := by
  have hfour := four_le_length64_iff hkey
  have hpos : 0 < key.length64 ↔ 0 < key.size :=
    UInt64.ofNat_lt_iff_lt (a := 0) (by decide) hkey
  by_cases h4 : 4 ≤ key.size
  · rw [recipe, if_pos (hfour.2 h4), if_pos h4, run?_words h4 hkey]
  · rw [recipe, if_neg (mt hfour.1 h4), if_neg h4]
    by_cases h0 : 0 < key.size
    · rw [if_pos (hpos.2 h0), if_pos h0, run?_tiny h0 hkey]
    · rw [if_neg (mt hpos.1 h0), if_neg h0, run?_pure]

theorem digest_eq_formula (hkey : key.size < 2 ^ 64) :
    digest key = if 4 ≤ key.size then wordsDigest key
      else if 0 < key.size then tinyDigest key else emptyDigest :=
  run_eq_of_run? (run?_recipe hkey)

theorem digest?_eq (hkey : key.size < 2 ^ 64) : digest? key = some (digest key) :=
  run?_eq_some_run (run?_recipe hkey)

end KeyDigest.Lookup3
