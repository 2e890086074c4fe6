import KeyDigest.Text.Sink

/-!
# Writing into a sink

To write is to put pieces of text into a sink, one after another, and to fail as soon as one is
refused. Nothing is put after that, and the sink stays as the refusal left it.
-/

namespace KeyDigest.Text

/-- Writing into a sink of type `σ`. -/
abbrev Writing (σ : Type) := OptionT (StateM σ)

namespace Writing

variable {σ : Type}

/-- The sink after the writing, and whether the writing came to its end. -/
def into (w : Writing σ Unit) (s : σ) : σ × Bool :=
  let (done, s) := w.run.run s
  (s, done.isSome)

/-- Writing that is done only if `c` holds. -/
def when (c : Prop) [Decidable c] (w : Writing σ Unit) : Writing σ Unit :=
  if c then w else pure ()

section

variable [Sink σ]

/-- Write one piece. -/
def piece (p : String) : Writing σ Unit := do
  guard (← modifyGet fun s => (Sink.put p s).swap)

/-- Write a text in double quotes. It holds no quote, backslash or control character itself. -/
def quoted (s : String) : Writing σ Unit := do
  piece "\""
  piece s
  piece "\""

/-- Write the items of a list from some item on, each but the first of the list after a comma. -/
def items (first : Bool) : List (Writing σ Unit) → Writing σ Unit
  | [] => pure ()
  | item :: rest => do
    when (!first) (piece ", ")
    item
    items false rest

/-- Write a list in square brackets. -/
def listed (l : List (Writing σ Unit)) : Writing σ Unit := do
  piece "["
  items true l
  piece "]"

end

/-! ## What is left in the sink -/

theorem into_pure (s : σ) : (pure () : Writing σ Unit).into s = (s, true) := rfl

theorem into_bind (w : Writing σ Unit) (next : Unit → Writing σ Unit) (s : σ) :
    (w >>= next).into s = if (w.into s).2 then (next ()).into (w.into s).1 else w.into s := by
  have hrun : (w >>= next).run.run s = match w.run.run s with
      | (some (), s) => (next ()).run.run s
      | (none, s) => (none, s) := by
    rw [OptionT.run_bind, Option.elimM, StateT.run_bind]
    rcases w.run.run s with ⟨_ | _, t⟩ <;> rfl
  rw [into, hrun, into]
  rcases w.run.run s with ⟨_ | _, t⟩ <;> rfl

theorem into_piece [Sink σ] (p : String) (s : σ) : (piece p).into s = Sink.put p s := by
  have hrun : (piece p).run.run s =
      (OptionT.run (guard (Sink.put p s).2 : Writing σ Unit)).run (Sink.put p s).1 := by
    rw [piece, OptionT.run_bind, Option.elimM, StateT.run_bind]
    rfl
  rw [into, hrun]
  rcases Sink.put p s with ⟨t, _ | _⟩ <;> rfl

end Writing

end KeyDigest.Text
