/-!
# Sources of words

A source is a stream of 32-bit words over a state of its own. Two sources are given: a list of
words taken round and round, and the generator xoshiro256++, whose four words of state are spread
from a seed by splitmix64.
-/

namespace KeyDigest.Sampling

/-- A stream of words: the next word, and the state after it. -/
structure WordSource (σ : Type) where
  next : σ → UInt32 × σ

namespace WordSource

variable {σ : Type}

/-- The first `n` words from state `s` on. -/
def words (source : WordSource σ) : Nat → σ → List UInt32
  | 0, _ => []
  | n + 1, s => (source.next s).1 :: source.words n (source.next s).2

def after (source : WordSource σ) : Nat → σ → σ
  | 0, s => s
  | n + 1, s => source.after n (source.next s).2

/-- The words of an array, starting again after the last. The state counts the words taken. -/
def cycle (ws : Array UInt32) : WordSource Nat where
  next i := (ws[i % ws.size]?.getD 0, i + 1)

theorem after_cycle (ws : Array UInt32) (n i : Nat) : (cycle ws).after n i = i + n := by
  induction n generalizing i with
  | zero => rfl
  | succ n ih => rw [after, ih]; simp only [cycle]; omega

end WordSource

/-! ## xoshiro256++ -/

/-- `w` rotated left by `r` places. -/
def rotate64 (w : UInt64) (r : Nat) : UInt64 := ⟨w.toBitVec.rotateLeft r⟩

/-- The word that splitmix64 makes of its counter. -/
def spread (counter : UInt64) : UInt64 :=
  let z := (counter ^^^ (counter >>> 30)) * 0xbf58476d1ce4e5b9
  let z := (z ^^^ (z >>> 27)) * 0x94d049bb133111eb
  z ^^^ (z >>> 31)

structure Xoshiro256 where
  s0 : UInt64
  s1 : UInt64
  s2 : UInt64
  s3 : UInt64
  deriving DecidableEq

namespace Xoshiro256

def seeded (seed : UInt64) : Xoshiro256 :=
  let gamma : UInt64 := 0x9e3779b97f4a7c15
  ⟨spread (seed + gamma), spread (seed + 2 * gamma), spread (seed + 3 * gamma),
    spread (seed + 4 * gamma)⟩

/-- The next 64-bit word, and the state after it. -/
def next64 (x : Xoshiro256) : UInt64 × Xoshiro256 :=
  let result := rotate64 (x.s0 + x.s3) 23 + x.s0
  let s2 := x.s2 ^^^ x.s0
  let s3 := x.s3 ^^^ x.s1
  let s1 := x.s1 ^^^ s2
  let s0 := x.s0 ^^^ s3
  (result, ⟨s0, s1, s2 ^^^ (x.s1 <<< 17), rotate64 s3 45⟩)

/-- The generator as a source: the high half of every word. -/
def source : WordSource Xoshiro256 where
  next x := ((x.next64.1 >>> 32).toUInt32, x.next64.2)

end Xoshiro256

end KeyDigest.Sampling
