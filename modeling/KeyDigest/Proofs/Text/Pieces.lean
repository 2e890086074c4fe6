import Mathlib
import KeyDigest.Text.Record
import KeyDigest.Text.Writing

/-!
# Pieces offered to a sink

A writing offers pieces to the sink. `Offered` says what that may come to, for any sink whatever:
either the sink takes all of the pieces, or it refuses one after it has taken those before it, and
is left as this refusal leaves it. What a writing offers is put together from what its parts offer.

* `Offers.bind`, `offers_piece`, `offers_listed`: the pieces of a writing.
* `Offered.eq_of_string`: a string takes them all.
* `Offered.limited`: a sink of limited room is left with the first bytes of the whole text, and
  takes all of the pieces if and only if there are no more bytes than it has room for.
-/

namespace KeyDigest.Text

/-! ## Until the first refusal -/

section

variable {σ : Type} [Sink σ]

/-- The sink `s` takes the pieces whole, one after another, and is `t` afterwards. -/
inductive Takes : σ → List String → σ → Prop
  | nil (s : σ) : Takes s [] s
  | cons {p : String} {ps : List String} {s t u : σ} :
      Sink.put p s = (t, true) → Takes t ps u → Takes s (p :: ps) u

/-- What may come of pieces that are offered to the sink `s` until it refuses one: the sink that is
left, and whether all of the pieces were taken. -/
inductive Offered (s : σ) : List String → σ × Bool → Prop
  | taken {ps : List String} {t : σ} : Takes s ps t → Offered s ps (t, true)
  | refused {before after : List String} {p : String} {t u : σ} :
      Takes s before t → Sink.put p t = (u, false) → Offered s (before ++ p :: after) (u, false)

variable {ps qs : List String} {s t : σ} {out : σ × Bool}

theorem Takes.append {u : σ} (h : Takes s ps t) (h' : Takes t qs u) : Takes s (ps ++ qs) u := by
  induction h with
  | nil s => exact h'
  | cons hput _ ih => exact .cons hput (ih h')

theorem Takes.offered_append (h : Takes s ps t) (h' : Offered t qs out) :
    Offered s (ps ++ qs) out := by
  cases h' with
  | taken htakes => exact .taken (h.append htakes)
  | refused htakes hput =>
    rw [← List.append_assoc]
    exact .refused (h.append htakes) hput

end

/-! ## The pieces of a writing -/

/-- The pieces of items with commas between them, and one in front unless they are the first. -/
def separated (first : Bool) : List (List String) → List String
  | [] => []
  | ps :: rest => (if !first then [", "] else []) ++ ps ++ separated false rest

/-- The pieces of a text in double quotes. -/
def quotedPieces (s : String) : List String := ["\"", s, "\""]

namespace Writing

variable {σ : Type} [Sink σ]

/-- Whatever state the sink is in, the writing comes to what comes of offering it these pieces. -/
def Offers (w : Writing σ Unit) (ps : List String) : Prop := ∀ s, Offered s ps (w.into s)

variable {w : Writing σ Unit} {next : Unit → Writing σ Unit} {ps qs : List String}

theorem offers_pure : Offers (pure () : Writing σ Unit) [] := by
  intro s
  rw [into_pure]
  exact .taken (.nil s)

theorem offers_piece (p : String) : Offers (piece p : Writing σ Unit) [p] := by
  intro s
  rw [into_piece]
  rcases h : Sink.put p s with ⟨t, _ | _⟩
  · exact (Offered.refused (.nil s) h : Offered s ([] ++ [p]) (t, false))
  · exact .taken (.cons h (.nil t))

theorem Offers.bind (h : Offers w ps) (hnext : Offers (next ()) qs) :
    Offers (w >>= next) (ps ++ qs) := by
  intro s
  have hout := h s
  rw [into_bind]
  generalize w.into s = out at hout
  cases hout with
  | taken htakes => exact htakes.offered_append (hnext _)
  | refused htakes hput =>
    rw [List.append_assoc]
    exact .refused htakes hput

theorem Offers.cons (p : String) (hnext : Offers (next ()) ps) :
    Offers (piece p >>= next) (p :: ps) :=
  (offers_piece p).bind hnext

theorem Offers.when (c : Prop) [Decidable c] (h : Offers w ps) :
    Offers (when c w) (if c then ps else []) := by
  rw [Writing.when]
  split
  · exact h
  · exact offers_pure

theorem offers_quoted (s : String) : Offers (quoted s : Writing σ Unit) (quotedPieces s) :=
  .cons _ (.cons _ (offers_piece _))

theorem offers_items {l : List (Writing σ Unit)} {pieces : List (List String)}
    (h : List.Forall₂ Offers l pieces) (first : Bool) :
    Offers (items first l) (separated first pieces) := by
  induction h generalizing first with
  | nil => exact offers_pure
  | cons hitem _ ih =>
    rw [separated, List.append_assoc]
    exact ((offers_piece ", ").when (!first)).bind (hitem.bind (ih false))

theorem offers_listed {l : List (Writing σ Unit)} {pieces : List (List String)}
    (h : List.Forall₂ Offers l pieces) :
    Offers (listed l) ("[" :: (separated true pieces ++ ["]"])) :=
  .cons _ ((offers_items h true).bind (offers_piece _))

end Writing

/-! ## The text of the pieces -/

theorem separated_false_cons (ps : List String) (rest : List (List String)) :
    separated false (ps :: rest) = ", " :: separated true (ps :: rest) := rfl

theorem join_separated (pieces : List (List String)) :
    String.join (separated true pieces) = ", ".intercalate (pieces.map String.join) := by
  cases pieces with
  | nil => rfl
  | cons ps rest =>
    induction rest generalizing ps with
    | nil => simp [separated]
    | cons qs rest ih =>
      have hsplit : separated true (ps :: qs :: rest) = ps ++ separated false (qs :: rest) := rfl
      rw [hsplit, separated_false_cons, String.join_append, String.join_cons, ih, List.map_cons,
        List.map_cons, List.map_cons, String.intercalate_cons_cons, String.append_assoc]

theorem join_quotedPieces (s : String) : String.join (quotedPieces s) = quoted s := by
  simp [quotedPieces, quoted, String.append_assoc]

/-! ## A string -/

theorem Takes.eq_of_string {s t : String} {ps : List String} (h : Takes s ps t) :
    t = s ++ String.join ps := by
  induction h with
  | nil s => simp
  | cons hput _ ih =>
    obtain ⟨rfl, -⟩ := Prod.mk.inj hput
    rw [ih, String.join_cons, String.append_assoc]

/-- A string takes every piece. -/
theorem Offered.eq_of_string {s : String} {ps : List String} {out : String × Bool}
    (h : Offered s ps out) : out = (s ++ String.join ps, true) := by
  cases h with
  | taken htakes => rw [htakes.eq_of_string]
  | refused _ hput => cases (Prod.mk.inj hput).2

/-! ## Limited room -/

section Limited

variable {s t : Limited} {p : String} {ps : List String} {out : Limited × Bool}

theorem put_eq_true_iff : Sink.put p s = (t, true) ↔
    (bytes p).length ≤ s.room ∧ t = ⟨s.room - (bytes p).length, s.held ++ bytes p⟩ := by
  simp only [Sink.put]
  split <;> simp_all [eq_comm]

theorem put_eq_false_iff : Sink.put p s = (t, false) ↔
    s.room < (bytes p).length ∧ t = ⟨0, s.held ++ (bytes p).take s.room⟩ := by
  simp only [Sink.put]
  split <;> simp_all [eq_comm]

theorem Takes.limited (h : Takes s ps t) :
    t.held = s.held ++ bytes (String.join ps) ∧
      s.room = (bytes (String.join ps)).length + t.room := by
  induction h with
  | nil s => simp
  | cons hput _ ih =>
    obtain ⟨hle, rfl⟩ := put_eq_true_iff.1 hput
    obtain ⟨hheld, hroom⟩ := ih
    rw [String.join_cons, bytes_append, List.length_append]
    refine ⟨by rw [hheld, List.append_assoc], ?_⟩
    dsimp only at hroom
    omega

/-- **Of the whole text, the sink holds as many of the first bytes as it had room for**, and all
pieces were taken if and only if the text has no more bytes. -/
theorem Offered.limited (h : Offered s ps out) :
    out.1.held = s.held ++ (bytes (String.join ps)).take s.room ∧
      (out.2 ↔ (bytes (String.join ps)).length ≤ s.room) := by
  cases h with
  | taken htakes =>
    obtain ⟨hheld, hroom⟩ := htakes.limited
    have hle : (bytes (String.join ps)).length ≤ s.room := by omega
    exact ⟨by rw [hheld, List.take_of_length_le hle], by simp [hle]⟩
  | @refused before after p t u htakes hput =>
    obtain ⟨hheld, hroom⟩ := htakes.limited
    obtain ⟨hlt, rfl⟩ := put_eq_false_iff.1 hput
    have hbytes : bytes (String.join (before ++ p :: after)) =
        bytes (String.join before) ++ (bytes p ++ bytes (String.join after)) := by
      rw [String.join_append, String.join_cons, bytes_append, bytes_append]
    have hsub : s.room - (bytes (String.join before)).length = t.room := by omega
    rw [hbytes]
    constructor
    · have hbefore : (bytes (String.join before)).take s.room = bytes (String.join before) :=
        List.take_of_length_le (by omega)
      rw [List.take_append, hbefore, hsub, List.take_append_of_le_length hlt.le, hheld,
        List.append_assoc]
    · have hlong : s.room < (bytes (String.join before) ++
          (bytes p ++ bytes (String.join after))).length := by
        simp only [List.length_append]
        omega
      exact iff_of_false Bool.false_ne_true hlong.not_ge

end Limited

end KeyDigest.Text
