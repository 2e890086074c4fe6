import KeyDigest.Words.Mixing
import KeyDigest.Sampling.WordSource
import KeyDigest.Text.Record

/-!
# The offset table

A long key is cut into chunks, and the table says where in a chunk to read. Bucket `i` serves the
chunks of `2 ^ i` up to `2 ^ (i + 1)` bytes and holds two offsets below `2 ^ (i + 1)`. Chunks of
less than eight bytes do not occur, so the first three buckets stay zero; the other offsets are
drawn from a source of words, of which only the top bits are used. A bucket that is too wide for
one draw scales it by an offset of a narrower bucket.
-/

namespace KeyDigest.Sampling

/-- Number of buckets, one for each position of a word's highest bit. -/
def bucketCount : Nat := 32

/-- Number of buckets that are never drawn. -/
def undrawnBuckets : Nat := 3

/-- Width of a draw from the generator. -/
def drawBits : UInt32 := 31

/-- The largest offset of a bucket, all of whose bits are set. -/
def bucketMask (bucket : UInt32) : UInt32 := 0xFFFFFFFF >>> (31 - (bucket &&& 31))

/-- Two offsets for each bucket. -/
structure OffsetTable where
  slots : Vector (UInt32 × UInt32) bucketCount
  deriving DecidableEq

namespace OffsetTable

/-- The table without offsets. -/
def zero : OffsetTable := ⟨Vector.replicate bucketCount (0, 0)⟩

/-- The two offsets of a bucket, zero where there is no such bucket. -/
def offsets (t : OffsetTable) (bucket : UInt32) : UInt32 × UInt32 :=
  t.slots[bucket.toNat]?.getD (0, 0)

/-- Every offset is below `2 ^ (i + 1)` in bucket `i`. -/
def inRange (t : OffsetTable) : Bool :=
  (List.range bucketCount).all fun i =>
    let o := t.offsets i.toUInt32
    o.1 ≤ bucketMask i.toUInt32 && o.2 ≤ bucketMask i.toUInt32

/-- The buckets in order, each as a list of two numbers. -/
def describe (t : OffsetTable) : String :=
  Text.listed (t.slots.toList.map fun o => Text.listed [o.1.toNat.repr, o.2.toNat.repr])

/-! ## Drawing a table -/

/-- The width of a draw: at least one bit and at most a word. -/
def drawWidth (bits : UInt32) : Nat := min (max bits.toNat 1) 32

/-- The top `width` bits of a word. -/
def draw (width : Nat) (word : UInt32) : UInt32 := word >>> (32 - width).toUInt32

/-- What a draw for `bucket` is multiplied by: one if the bucket is no wider than a draw, else the
first offset of the bucket that is `width` narrower, or one if that offset is zero. -/
def scale (t : OffsetTable) (width bucket : Nat) : UInt32 :=
  if bucket < width then 1
  else
    let s := (t.offsets (bucket - width).toUInt32).1
    if s = 0 then 1 else s

/-- The offset that a draw gives in `bucket`. -/
def slot (t : OffsetTable) (width bucket : Nat) (drawn : UInt32) : UInt32 :=
  drawn * t.scale width bucket &&& bucketMask bucket.toUInt32

/-- The table with the offsets of `bucket` made from two words. -/
def setBucket (t : OffsetTable) (width bucket : Nat) (first second : UInt32) : OffsetTable :=
  ⟨t.slots.setIfInBounds bucket
    (t.slot width bucket (draw width first), t.slot width bucket (draw width second))⟩

/-- Fill the given buckets in order, two words each. -/
def fill {σ : Type} (source : WordSource σ) (width : Nat) :
    List Nat → OffsetTable → σ → OffsetTable × σ
  | [], t, s => (t, s)
  | bucket :: rest, t, s =>
    let (first, s) := source.next s
    let (second, s) := source.next s
    fill source width rest (t.setBucket width bucket first second) s

/-- The buckets that are drawn. -/
def drawnBuckets : List Nat := List.range' undrawnBuckets (bucketCount - undrawnBuckets)

/-- The table drawn from a source, and the state that the source is left in. -/
def ofSource {σ : Type} (source : WordSource σ) (bits : UInt32) (s : σ) : OffsetTable × σ :=
  fill source (drawWidth bits) drawnBuckets zero s

/-- The table of a seed. -/
def ofSeed (seed : UInt32) : OffsetTable :=
  (ofSource Xoshiro256.source drawBits (Xoshiro256.seeded seed.toUInt64)).1

end OffsetTable

/-- The seed of a process that pins none: its number and the time, mixed. -/
def combineSeed (process time : UInt32) : UInt32 :=
  Mixing.finish process time (Mixing.round process time 14)

end KeyDigest.Sampling
