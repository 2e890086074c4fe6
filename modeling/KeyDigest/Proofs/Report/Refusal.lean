import KeyDigest.Proofs.Text.Pieces
import KeyDigest.Report

/-!
# Reports written into a sink

The one-line text of a report is written in pieces, some of which there are only in some reports,
and the names of the capabilities are written by a list of their own. Each of these parts stops at
a refusal and hands it on, so the whole stops there too: the sink is offered the pieces of the text
in their order, and no piece after the one that it refuses.

* `offers_write`: the pieces that are offered, for any sink.
* `join_pieces`: together they are the text.

**Theorem (`written_until_refused`).** A report is written up to the first refusal.
-/

namespace KeyDigest

open Text Writing

variable {σ : Type} [Sink σ]

/-- The pieces in which the names of capabilities are written. -/
def Capabilities.pieces (a : Capabilities) : List String :=
  "[" :: (separated true (a.names.map quotedPieces) ++ ["]"])

theorem Capabilities.offers_write (a : Capabilities) :
    Offers (a.write : Writing σ Unit) a.pieces := by
  refine offers_listed ?_
  rw [List.forall₂_map_left_iff, List.forall₂_map_right_iff, List.forall₂_same]
  exact fun n _ => offers_quoted n

theorem Capabilities.join_pieces (a : Capabilities) : String.join a.pieces = a.describe := by
  have hquoted : String.join ∘ quotedPieces = Text.quoted := funext join_quotedPieces
  rw [pieces, String.join_cons, String.join_append, join_separated, List.map_map, hquoted,
    describe, Text.listed, String.append_assoc]
  simp

namespace Report

/-- The pieces in which the one-line text is written. -/
def pieces (r : Report) : List String :=
  ["strhash: ", r.kernel, " (arch ", r.architecture.label, ", caps "] ++ (r.capabilities.pieces
    ++ ([", force ", r.effective.label]
    ++ ((if r.requested ≠ r.effective then [", requested ", r.requested.label] else [])
    ++ ((if r.seedPinned then [", seed pinned"] else []) ++ [")"]))))

theorem offers_write (r : Report) : Offers (r.write : Writing σ Unit) r.pieces :=
  .cons _ <| .cons _ <| .cons _ <| .cons _ <| .cons _ <| r.capabilities.offers_write.bind <|
    .cons _ <| .cons _ <| (Offers.when _ (.cons _ (offers_piece _))).bind <|
    (Offers.when _ (offers_piece _)).bind <| offers_piece _

theorem join_pieces (r : Report) : String.join r.pieces = r.text := by
  have hrequested : String.join (if r.requested ≠ r.effective then
      [", requested ", r.requested.label] else []) =
        if r.requested = r.effective then "" else ", requested " ++ r.requested.label := by
    rw [ite_not, apply_ite String.join, String.join_nil, String.join_cons, String.join_cons,
      String.join_nil, String.append_empty]
  have hpinned : String.join (if r.seedPinned then [", seed pinned"] else []) =
      if r.seedPinned then ", seed pinned" else "" := by
    rw [apply_ite String.join, String.join_nil, String.join_cons, String.join_nil,
      String.append_empty]
  rw [pieces, text]
  simp only [List.cons_append, List.nil_append, String.join_cons, String.join_append, hrequested,
    hpinned, Capabilities.join_pieces]

/-- **A report is written up to the first refusal.** Whatever the sink is, it is offered the pieces
of the one-line text in order until it refuses one, it stays as the refusal left it, and the writing
comes to its end if and only if no piece is refused. So a string gets the whole text. A sink with
room for `limit` bytes is left with the first `limit` bytes of the text, or with all of them if
there are no more, and only then does the writing come to its end. -/
theorem written_until_refused (r : Report) :
    String.join r.pieces = r.text ∧
    (∀ (σ : Type) [Sink σ] (s : σ), Offered s r.pieces (r.write.into s)) ∧
    r.write.into "" = (r.text, true) ∧
    ∀ limit : Nat,
      (r.writeLimited limit).1.held = (bytes r.text).take (min limit (bytes r.text).length) ∧
        ((r.writeLimited limit).2 ↔ (bytes r.text).length ≤ limit) := by
  refine ⟨r.join_pieces, fun σ _ => r.offers_write, ?_, fun limit => ?_⟩
  · rw [(r.offers_write "").eq_of_string, r.join_pieces, String.empty_append]
  · obtain ⟨hheld, htaken⟩ := (r.offers_write (⟨limit, []⟩ : Limited)).limited
    rw [r.join_pieces] at hheld htaken
    exact ⟨by rw [writeLimited, hheld, List.nil_append, List.take_eq_take_min], htaken⟩

/-- The room ends inside the first name of the list. -/
example : (⟨.portable, .x86_64, ⟨3⟩, .auto, .auto, false⟩ : Report).writeLimited 50 =
    (⟨0, bytes "strhash: portable/lookup3 (arch x86_64, caps [\"sse"⟩, false) := by rfl

end Report

end KeyDigest
