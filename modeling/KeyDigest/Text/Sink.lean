/-!
# Sinks

Text goes into a sink piece by piece. A sink takes a piece whole or refuses it; of a piece that it
refuses it may still keep a part. A string takes everything. A sink of limited room keeps as much
as fits of the first piece that does not fit, and is full from then on.
-/

namespace KeyDigest.Text

def bytes (s : String) : List UInt8 := s.toUTF8.data.toList

/-- Where pieces of text can be put. Putting one gives the sink as it is afterwards and says
whether the piece was taken whole. -/
class Sink (σ : Type) where
  put : String → σ → σ × Bool

instance : Sink String where
  put p s := (s ++ p, true)

/-- A sink with the bytes that it holds and the number of bytes that it still has room for. -/
structure Limited where
  room : Nat
  held : List UInt8 := []
  deriving DecidableEq

instance : Sink Limited where
  put p s :=
    let b := bytes p
    if b.length ≤ s.room then (⟨s.room - b.length, s.held ++ b⟩, true)
    else (⟨0, s.held ++ b.take s.room⟩, false)

@[simp] theorem bytes_empty : bytes "" = [] := rfl

@[simp] theorem bytes_append (s t : String) : bytes (s ++ t) = bytes s ++ bytes t := by
  simp [bytes, String.toUTF8]

end KeyDigest.Text
