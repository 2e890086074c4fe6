/-!
# Mixing words

A round takes the xor of two words and subtracts a rotation of the second one, modulo `2 ^ 32`.
Three rounds with fixed rotations diffuse a state of three words into a digest. No round
multiplies, so each is a bijection of the word it changes.
-/

namespace KeyDigest.Mixing

/-- `w` rotated left by `r` places, `r` taken modulo 32. -/
def rotate (w r : UInt32) : UInt32 := ⟨w.toBitVec.rotateLeft r.toNat⟩

/-- One round: `(x ^ y) - rotate y r`. -/
def round (x y r : UInt32) : UInt32 := (x ^^^ y) - rotate y r

/-- Undoes `round` in its first word. -/
def unround (z y r : UInt32) : UInt32 := (z + rotate y r) ^^^ y

/-- The last three rounds over the state `(a, b, h)`; the digest is the new `h`. -/
def finish (a b h : UInt32) : UInt32 :=
  let a := round a h 11
  let b := round b a 25
  round h b 16

@[simp] theorem unround_round (x y r : UInt32) : unround (round x y r) y r = x := by
  rw [unround, round, UInt32.sub_add_cancel, UInt32.xor_assoc, UInt32.xor_self, UInt32.xor_zero]

@[simp] theorem round_unround (z y r : UInt32) : round (unround z y r) y r = z := by
  rw [unround, round, UInt32.xor_assoc, UInt32.xor_self, UInt32.xor_zero, UInt32.add_sub_cancel]

end KeyDigest.Mixing
