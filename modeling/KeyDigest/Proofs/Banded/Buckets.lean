import KeyDigest.Proofs.Banded.Positions

/-!
# The bucket of a key

A long key is sampled with the offsets of one bucket, that of the size of its chunks. The bucket is
the integer logarithm of this size, so it is the one whose range the size is in, and it does not go
down as keys get longer.

* `toNat_bucket_div`: the bucket of a length.
* `long_eq_of_offsets_eq`: no other bucket matters to the digest.

**Theorem (`bucket_is_logarithm`).** The logarithm, by the table and by the scan, and the bucket.
-/

namespace KeyDigest.Banded

open HighestBit Sampling

theorem bucketIndex_mono {b c : Nat} (h : b ≤ c) : bucketIndex b ≤ bucketIndex c := by
  rw [bucketIndex, bucketIndex, Nat.log2_eq_log_two, Nat.log2_eq_log_two]
  exact Nat.log_mono_right (min_le_min_right _ h)

section

variable {n : UInt64} (hlong : 128 ≤ n)
include hlong

theorem toNat_bucket_div : (bucket (n / chunks)).toNat = bucketIndex (n.toNat / 16) := by
  have hn := n.toNat_lt
  have h128 : 128 ≤ n.toNat := UInt64.le_iff_toNat_le.1 hlong
  rw [div_chunks, bucket_ofNat (by omega) (by omega)]
  exact toNat_bucket (bucketIndex_lt _)

/-- The size of the chunks is in the range of their bucket. -/
theorem bucket_div_bounds (hchunk : n.toNat / 16 < 2 ^ 32) :
    2 ^ (bucket (n / chunks)).toNat ≤ n.toNat / 16 ∧
      n.toNat / 16 < 2 ^ ((bucket (n / chunks)).toNat + 1) := by
  have h128 : 128 ≤ n.toNat := UInt64.le_iff_toNat_le.1 hlong
  rw [toNat_bucket_div hlong]
  exact ⟨two_pow_bucketIndex_le (by omega), lt_two_pow_bucketIndex hchunk⟩

theorem bucket_div_mono {n' : UInt64} (h : n ≤ n') :
    bucket (n / chunks) ≤ bucket (n' / chunks) := by
  rw [UInt32.le_iff_toNat_le, toNat_bucket_div hlong, toNat_bucket_div (UInt64.le_trans hlong h)]
  exact bucketIndex_mono (Nat.div_le_div_right (UInt64.le_iff_toNat_le.1 h))

/-- Two tables with the same offsets for the size of the chunks serve keys of this length alike. -/
theorem long_eq_of_offsets_eq {t t' : OffsetTable} {k : UInt32}
    (hlow : 2 ^ k.toNat ≤ n.toNat / 16) (hhigh : n.toNat / 16 < 2 ^ (k.toNat + 1))
    (hchunk : n.toNat / 16 < 2 ^ 32) (h : t.offsets k = t'.offsets k) : long n t = long n t' := by
  have h128 : 128 ≤ n.toNat := UInt64.le_iff_toNat_le.1 hlong
  have hk : k = bucket (n / chunks) := by
    apply UInt32.toNat_inj.1
    rw [toNat_bucket_div hlong, bucketIndex, Nat.min_eq_left (by omega), eq_comm,
      Nat.log2_eq_iff (by omega)]
    exact ⟨hlow, hhigh⟩
  rw [hk] at h
  rw [long, long, h]

end

/-- **The bucket is the integer logarithm of the size of a chunk.** The logarithm of a 32-bit word
is there unless the word is zero, and it is the `k` with `2 ^ k ≤ n < 2 ^ (k + 1)`: halving, by
which the table is made, and scanning for leading zeros give the same for every word. So the bucket
of a length whose chunks have a size of 32 bits is the one whose range the size is in, and no other
offsets matter to keys of that length; and longer keys never have a lower bucket. -/
theorem bucket_is_logarithm :
    (∀ n : UInt32, floorLog2 n = none ↔ n = 0) ∧
    (∀ n k : UInt32,
      floorLog2 n = some k ↔ 2 ^ k.toNat ≤ n.toNat ∧ n.toNat < 2 ^ (k.toNat + 1)) ∧
    (∀ n : UInt32, n ≠ 0 → entry n.toNat = some (scan n) ∧
      ∀ h : n.toNat < tableSize, table[n.toNat] = some (scan n)) ∧
    (∀ n : UInt64, 128 ≤ n → n.toNat / 16 < 2 ^ 32 →
      2 ^ (bucket (n / chunks)).toNat ≤ n.toNat / 16 ∧
        n.toNat / 16 < 2 ^ ((bucket (n / chunks)).toNat + 1) ∧
      ∀ (k : UInt32) (t t' : OffsetTable), 2 ^ k.toNat ≤ n.toNat / 16 →
        n.toNat / 16 < 2 ^ (k.toNat + 1) → t.offsets k = t'.offsets k → long n t = long n t') ∧
    ∀ n n' : UInt64, 128 ≤ n → n ≤ n' → bucket (n / chunks) ≤ bucket (n' / chunks) := by
  refine ⟨fun n => floorLog2_eq_none_iff, fun n k => floorLog2_eq_some_iff, fun n h => ?_,
    fun n hlong hchunk => ?_, fun n n' hlong h => bucket_div_mono hlong h⟩
  · exact ⟨entry_toNat h, getElem_table h⟩
  · obtain ⟨hlow, hhigh⟩ := bucket_div_bounds hlong hchunk
    exact ⟨hlow, hhigh, fun k t t' hlow' hhigh' => long_eq_of_offsets_eq hlong hlow' hhigh' hchunk⟩

/-- The table ends between keys of 2047 and of 2048 bytes, whose chunks have 127 and 128 bytes. The
offsets of bucket 3 do not matter to the latter. -/
theorem bucket_is_logarithm_across_table_end :
    (127 : UInt32) ≠ 0 ∧ (127 : UInt32).toNat < tableSize ∧
    table.get ⟨127, by decide⟩ = some (scan 127) ∧
    (128 : UInt64) ≤ 2047 ∧ (2047 : UInt64).toNat / 16 < 2 ^ 32 ∧
    2 ^ (bucket (2047 / chunks)).toNat ≤ 127 ∧
    (128 : UInt64) ≤ 2048 ∧ (2048 : UInt64).toNat / 16 < 2 ^ 32 ∧
    128 < 2 ^ ((bucket (2048 / chunks)).toNat + 1) ∧
    long 2048 .zero = long 2048 (OffsetTable.zero.setBucket 31 3 0xFFFFFFFF 0) ∧
    (2047 : UInt64) ≤ 2048 ∧ bucket (2047 / chunks) ≤ bucket (2048 / chunks) := by
  obtain ⟨-, -, hsame, hrange, hmono⟩ := bucket_is_logarithm
  obtain ⟨-, hhigh, hoffsets⟩ := hrange 2048 (by decide) (by decide)
  have hseven : OffsetTable.zero.offsets 7 =
      (OffsetTable.zero.setBucket 31 3 0xFFFFFFFF 0).offsets 7 := by decide
  exact ⟨by decide, by decide, (hsame 127 (by decide)).2 (by decide), by decide, by decide,
    (hrange 2047 (by decide) (by decide)).1, by decide, by decide, hhigh,
    hoffsets 7 _ _ (by decide) (by decide) hseven, by decide,
    hmono 2047 2048 (by decide) (by decide)⟩

end KeyDigest.Banded
