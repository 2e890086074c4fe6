/-!
# Length bands

The banded digest treats a key by its length alone: bytes, two words, every word, or sampled
words. The empty key is in no band.
-/

namespace KeyDigest

/-- A range of key lengths with a treatment of its own. -/
inductive Band where
  /-- One to three bytes. -/
  | tiny
  /-- Four to fifteen bytes. -/
  | short
  /-- Sixteen to 127 bytes. -/
  | medium
  /-- 128 bytes and more. -/
  | long
  deriving DecidableEq

namespace Band

def ofLength? (n : Nat) : Option Band :=
  if n = 0 then none
  else if n < 4 then some tiny
  else if n < 16 then some short
  else if n < 128 then some medium
  else some long

/-- The lengths of the band, from the first one to the one that is too long. -/
def label : Band → String
  | tiny => "1-4"
  | short => "4-16"
  | medium => "16-128"
  | long => "128+"

def name : Band → String
  | tiny => "Tiny"
  | short => "Short"
  | medium => "Medium"
  | long => "Long"

theorem ofLength?_eq_none_iff {n : Nat} : ofLength? n = none ↔ n = 0 := by
  grind [ofLength?]

theorem ofLength?_eq_tiny_iff {n : Nat} : ofLength? n = some tiny ↔ 0 < n ∧ n < 4 := by
  grind [ofLength?]

theorem ofLength?_eq_short_iff {n : Nat} : ofLength? n = some short ↔ 4 ≤ n ∧ n < 16 := by
  grind [ofLength?]

theorem ofLength?_eq_medium_iff {n : Nat} : ofLength? n = some medium ↔ 16 ≤ n ∧ n < 128 := by
  grind [ofLength?]

theorem ofLength?_eq_long_iff {n : Nat} : ofLength? n = some long ↔ 128 ≤ n := by
  grind [ofLength?]

end Band

end KeyDigest
