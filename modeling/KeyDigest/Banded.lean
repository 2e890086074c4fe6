import KeyDigest.Band
import KeyDigest.Words.HighestBit
import KeyDigest.Lookup3
import KeyDigest.Sampling.OffsetTable

/-!
# The banded digest

A recipe for each band. The short band folds the first and the last word, which may overlap. The
medium band keeps two registers and adds to each what it makes of every stride, then folds the
last sixteen bytes. The long band cuts the key into sixteen chunks and folds one sampled word of
each, then the first and the last word; its two registers meet only in the last fold. Every band
but the tiny one begins by folding the length into a zero register.
-/

namespace KeyDigest.Banded

open Recipe Sampling

def chunks : UInt64 := 16

/-! ## The bands -/

/-- Keys of four to fifteen bytes. -/
def short (n : UInt64) : Recipe UInt32 := do
  let (v1, v2) ←
    if 8 ≤ n then do
      let v1 ← word64 0
      let v2 ← word64 (← compute .sub n 8)
      pure (v1, v2)
    else do
      let v1 ← word32 0
      let v2 ← word32 (← compute .sub n 4)
      pure (v1.toUInt64, v2.toUInt64)
  let h ← fold32 0 n.toUInt32
  let h ← fold64 h v1
  fold64 h v2

structure Lanes where
  first : UInt32
  second : UInt32

def Lanes.fold (l : Lanes) (v1 v2 : Recipe UInt64) : Recipe Lanes := do
  let first ← fold64 l.first (← v1)
  let second ← fold64 l.second (← v2)
  return ⟨first, second⟩

def Lanes.join (l : Lanes) : Recipe UInt32 := fold32 l.first l.second

/-- Strides from `i` on, while more than sixteen bytes are left; `fuel` bounds their number. What
a fold gives is added to the lane. -/
def strides (n : UInt64) : Nat → UInt64 → Lanes → Recipe Lanes
  | 0, _, l => pure l
  | fuel + 1, i, l => do
    let next ← compute .add i 16
    if next < n then
      let folded ← l.fold (word64 i) (do word64 (← compute .add i 8))
      strides n fuel next ⟨l.first + folded.first, l.second + folded.second⟩
    else
      pure l

/-- Keys of sixteen to 127 bytes. They have at most seven strides. -/
def medium (n : UInt64) : Recipe UInt32 := do
  let h ← fold32 0 n.toUInt32
  let l ← strides n 8 0 ⟨h, 0⟩
  let l ← l.fold (do word64 (← compute .sub n 16)) (do word64 (← compute .sub n 8))
  l.join

/-- The bucket for a chunk size, clamped to 32 bits. -/
def bucket (chunk : UInt64) : UInt32 :=
  let size : UInt32 := if chunk.toNat < UInt32.size then chunk.toUInt32 else 0xFFFFFFFF
  (HighestBit.floorLog2 size).getD 0

/-- Samples of chunk pair `pair`, the first offset in its first chunk and the second one in its
second chunk. -/
def samplePair (n chunk pos1 pos2 : UInt64) (pair : UInt64) (l : Lanes) : Recipe Lanes := do
  let base ← compute .mul (← compute .mul 2 pair) chunk
  l.fold
    (do sample64 n (← compute .add base pos1))
    (do sample64 n (← compute .add (← compute .add base chunk) pos2))

/-- Samples of the last pair, whose second offset counts back from the pair's end. -/
def sampleLast (n chunk pos1 pos2 : UInt64) (l : Lanes) : Recipe Lanes := do
  let base ← compute .mul (← compute .sub chunks 2) chunk
  l.fold
    (do sample64 n (← compute .add base pos1))
    (do
      let stop ← compute .add base (← compute .mul 2 chunk)
      let back ← compute .add 8 pos2
      sample64 n (← compute .subFloor stop back))

/-- Keys of 128 bytes and more. -/
def long (n : UInt64) (t : OffsetTable) : Recipe UInt32 := do
  let chunk := n / chunks
  let pos1 := (t.offsets (bucket chunk)).1.toUInt64
  let pos2 := (t.offsets (bucket chunk)).2.toUInt64
  let h ← fold32 0 n.toUInt32
  let l ← [0, 1, 2, 3, 4, 5, 6].foldlM
    (fun l pair => samplePair n chunk pos1 pos2 pair l) ⟨h, 0⟩
  let l ← sampleLast n chunk pos1 pos2 l
  let l ← l.fold (word64 0) (do word64 (← compute .sub n 8))
  l.join

/-! ## All keys -/

/-- The digest of a key of `n` bytes. That `n` is not zero is promised: without a band, as with the
tiny one, the first byte is read. -/
def recipe (n : UInt64) (t : OffsetTable) : Recipe UInt32 := do
  check (0 < n)
  match Band.ofLength? n.toNat with
  | some .short => short n
  | some .medium => medium n
  | some .long => long n t
  | some .tiny | none => Lookup3.tiny n

/-- The digest of a key. The empty key has no recipe. -/
def digest (kernel : Kernel) (t : OffsetTable) (key : Key) : UInt32 :=
  if key.isEmpty then emptyDigest else (recipe key.length64 t).run kernel key

/-- The digest of a key, if no step of its recipe leaves the key or the 64-bit range and every
promise holds. -/
def digest? (kernel : Kernel) (t : OffsetTable) (key : Key) : Option UInt32 :=
  if key.isEmpty then some emptyDigest else (recipe key.length64 t).run? kernel key

/-- The folds that make a key's digest, in order. -/
def folds (kernel : Kernel) (t : OffsetTable) (key : Key) : List Step :=
  if key.isEmpty then [] else (recipe key.length64 t).folds kernel key

end KeyDigest.Banded
