import KeyDigest.Once.Atomic
import KeyDigest.Proofs.Threads.History

/-!
# The atomic cell is filled once

Any number of threads make calls on an empty cell, and their accesses are interleaved in any way.
What the cell holds is told by how far the filling has come: nobody has claimed the cell, or one
thread has and made its value, written it or published it. A thread that is about to run its
initializer, to write the slot, to publish it or to read it can only be at the stage that this
access follows, so each stage is left once and by one thread.

* `Stage`, `Stage.Allows`: how far the filling has come, and what may be made at that point.
* `after_cases`: what one access does to the stage; `allows_pending`, `allows_of_ne`: what may be
  made after it.
* `exists_invariant`: the stage and its past at every moment of every run.

**Theorem (`filledOnce`).** One initializer, one write of the slot, and one value for all.
-/

namespace KeyDigest.Once.Atomic

variable {α : Type}

/-! ## Stages -/

/-- How far the filling has come, by which thread and with which value. -/
inductive Stage (α : Type) where
  | untouched
  | claimed (winner : Nat) (v : α)
  | made (winner : Nat) (v : α)
  | written (winner : Nat) (v : α)
  | published (winner : Nat) (v : α)

namespace Stage

def cells : Stage α → Cells α
  | untouched => {}
  | claimed _ _ => { phase := .filling }
  | made _ _ => { phase := .filling, runs := 1 }
  | written _ v => { phase := .filling, slot := some v, runs := 1 }
  | published _ v => { phase := .ready, slot := some v, runs := 1 }

/-- What thread `i` may be about to make. -/
def Allows (s : Stage α) (i : Nat) : Access α → Prop
  | .peek | .await => True
  | .inspect f | .claim f => f ≠ .panics
  | .makeValue f => ∃ v, f = .returns v ∧ s = claimed i v
  | .writeSlot v => s = made i v
  | .publish => ∃ v, s = written i v
  | .readSlot => ∃ w v, s = published w v

/-- The stage after thread `i` has made an access that it may make. -/
def after (s : Stage α) (i : Nat) : Access α → Stage α
  | .claim (.returns v) => match s with
    | untouched => claimed i v
    | s => s
  | .makeValue (.returns v) => made i v
  | .writeSlot v => written i v
  | .publish => match s with
    | written w v => published w v
    | s => s
  | _ => s

/-- Who claimed the cell. -/
def winner? : Stage α → Option Nat
  | untouched => none
  | claimed w _ | made w _ | written w _ | published w _ => some w

/-- The accesses that have filled the cell so far, and by whom they were made. -/
def done : Stage α → List (Nat × Access α)
  | untouched | claimed _ _ => []
  | made w v => [(w, .makeValue (.returns v))]
  | written w v => [(w, .makeValue (.returns v)), (w, .writeSlot v)]
  | published w v => [(w, .makeValue (.returns v)), (w, .writeSlot v), (w, .publish)]

end Stage

/-- The accesses that fill the cell. -/
def Access.Fills : Access α → Prop
  | .makeValue _ | .writeSlot _ | .publish => True
  | _ => False

/-! ## One access -/

section Access

variable {s : Stage α} {i j : Nat} {a b : Access α}

/-- An access that is allowed leaves everything as it is, or it is the one that leads from its stage
to the next. -/
theorem after_cases (h : s.Allows i a) :
    (s.after i a = s ∧ ¬ a.Fills ∧ (a.perform s.cells).1 = s.cells) ∨
    (∃ v, a = .claim (.returns v) ∧ s = .untouched) ∨
    (∃ v, a = .makeValue (.returns v) ∧ s = .claimed i v) ∨
    (∃ v, a = .writeSlot v ∧ s = .made i v) ∨
    ∃ v, a = .publish ∧ s = .written i v := by
  cases a with
  | claim f =>
    cases f with
    | returns v =>
      cases s with
      | untouched => exact .inr (.inl ⟨v, rfl, rfl⟩)
      | _ => exact .inl ⟨rfl, id, rfl⟩
    | panics => exact absurd rfl h
  | makeValue f =>
    obtain ⟨v, rfl, rfl⟩ := h
    exact .inr (.inr (.inl ⟨v, rfl, rfl⟩))
  | writeSlot v => exact .inr (.inr (.inr (.inl ⟨v, rfl, h⟩)))
  | publish =>
    obtain ⟨v, rfl⟩ := h
    exact .inr (.inr (.inr (.inr ⟨v, rfl, rfl⟩)))
  | _ => exact .inl ⟨rfl, id, rfl⟩

theorem perform_cells (h : s.Allows i a) : (a.perform s.cells).1 = (s.after i a).cells := by
  rcases after_cases h with ⟨hafter, -, hcells⟩ | ⟨v, rfl, rfl⟩ | ⟨v, rfl, rfl⟩ | ⟨v, rfl, rfl⟩ |
    ⟨v, rfl, rfl⟩
  · rw [hcells, hafter]
  all_goals rfl

theorem exists_eq_published (h : s.cells.phase = .ready) : ∃ w v, s = .published w v := by
  cases s with
  | published w v => exact ⟨w, v, rfl⟩
  | _ => cases h

theorem eq_untouched (h : s.cells.phase = .empty) : s = .untouched := by
  cases s with
  | untouched => rfl
  | _ => cases h

/-- What follows an access in its call is allowed at the stage after it. -/
theorem allows_pending (h : s.Allows i a) (hb : (a.perform s.cells).2.pending a = some b) :
    (s.after i a).Allows i b := by
  cases a with
  | peek =>
    simp only [Access.perform] at hb
    split at hb
    · next hready =>
      obtain rfl := Option.some.inj hb
      exact exists_eq_published hready
    · cases hb
  | inspect f =>
    obtain rfl := Option.some.inj hb
    split
    · next hready => exact exists_eq_published hready
    · exact h
  | claim f =>
    cases f with
    | returns v =>
      simp only [Access.perform] at hb
      split at hb
      · next hempty =>
        obtain rfl := Option.some.inj hb
        obtain rfl := eq_untouched hempty
        exact ⟨v, rfl, rfl⟩
      · obtain rfl := Option.some.inj hb
        trivial
    | panics => exact absurd rfl h
  | makeValue f =>
    obtain ⟨v, rfl, rfl⟩ := h
    obtain rfl := Option.some.inj hb
    rfl
  | writeSlot v =>
    obtain rfl := Option.some.inj hb
    exact ⟨v, rfl⟩
  | publish =>
    obtain ⟨v, rfl⟩ := h
    obtain rfl := Option.some.inj hb
    exact ⟨i, v, rfl⟩
  | await =>
    simp only [Access.perform] at hb
    split at hb
    · next hready =>
      obtain rfl := Option.some.inj hb
      exact exists_eq_published hready
    · obtain rfl := Option.some.inj hb
      trivial
  | readSlot => cases hb

/-- What one thread may be about to make, no other thread takes from it. -/
theorem allows_of_ne (hij : j ≠ i) (h : s.Allows i a) (hb : s.Allows j b) :
    (s.after i a).Allows j b := by
  rcases after_cases h with ⟨hafter, -, -⟩ | ⟨v, rfl, rfl⟩ | ⟨v, rfl, rfl⟩ | ⟨v, rfl, rfl⟩ |
    ⟨v, rfl, rfl⟩
  · rwa [hafter]
  -- Only the thread that fills the cell may make what fills it.
  all_goals cases b <;> simp_all [Stage.Allows, Stage.after]

/-- A call starts with looking at the phase. -/
theorem allows_first (s : Stage α) (i : Nat) {c : Call α} (h : c ≠ .fill .panics) :
    s.Allows i (protocol.first c) := by
  cases c with
  | get => trivial
  | fill f => exact fun hf => h (hf ▸ rfl)

theorem outcome_of_allows {o : Outcome α} (h : s.Allows i a)
    (ho : (a.perform s.cells).2.outcome? = some o) :
    (o = .absent ∧ s.cells.phase ≠ .ready) ∨
      ∃ w v, o = .value v ∧ s.after i a = .published w v := by
  cases a with
  | peek =>
    simp only [Access.perform] at ho
    split at ho
    · cases ho
    · next hready =>
      obtain rfl := Option.some.inj ho
      exact .inl ⟨rfl, hready⟩
  | readSlot =>
    obtain ⟨w, v, rfl⟩ := h
    obtain rfl := Option.some.inj ho
    exact .inr ⟨w, v, rfl, rfl⟩
  | makeValue f =>
    obtain ⟨v, rfl, rfl⟩ := h
    cases ho
  | claim f | await =>
    simp only [Access.perform] at ho
    split at ho <;> cases ho
  | _ => cases ho

/-- The accesses that fill the cell are recorded by the stage, and by nothing else. -/
theorem done_after (h : s.Allows i a) :
    (a.Fills → (s.after i a).done = s.done ++ [(i, a)]) ∧
    (¬ a.Fills → (s.after i a).done = s.done) := by
  rcases after_cases h with ⟨hafter, hfills, -⟩ | ⟨v, rfl, rfl⟩ | ⟨v, rfl, rfl⟩ | ⟨v, rfl, rfl⟩ |
    ⟨v, rfl, rfl⟩
  · exact ⟨fun hf => absurd hf hfills, fun _ => by rw [hafter]⟩
  · exact ⟨False.elim, fun _ => rfl⟩
  all_goals exact ⟨fun _ => rfl, fun hf => absurd trivial hf⟩

theorem winner_after {w : Nat} (h : s.Allows i a) (hw : (s.after i a).winner? = some w) :
    s.winner? = some w ∨
      w = i ∧ s.cells.phase = .empty ∧ (s.after i a).cells.phase = .filling := by
  rcases after_cases h with ⟨hafter, -, -⟩ | ⟨v, rfl, rfl⟩ | ⟨v, rfl, rfl⟩ | ⟨v, rfl, rfl⟩ |
    ⟨v, rfl, rfl⟩
  · exact .inl (hafter ▸ hw)
  · exact .inr ⟨(Option.some.inj hw).symm, rfl, rfl⟩
  all_goals exact .inl hw

theorem after_published {w : Nat} {v : α} (hs : s = .published w v) (h : s.Allows i a) :
    s.after i a = .published w v := by
  rcases after_cases h with ⟨hafter, -, -⟩ | ⟨_, -, rfl⟩ | ⟨_, -, rfl⟩ | ⟨_, -, rfl⟩ | ⟨_, -, rfl⟩
  · rw [hafter, hs]
  all_goals cases hs

theorem phase_after (h : s.Allows i a) :
    (s.after i a).cells.phase = s.cells.phase ∨
      s.cells.phase = .empty ∧ (s.after i a).cells.phase = .filling ∨
      s.cells.phase = .filling ∧ (s.after i a).cells.phase = .ready := by
  rcases after_cases h with ⟨hafter, -, -⟩ | ⟨v, rfl, rfl⟩ | ⟨v, rfl, rfl⟩ | ⟨v, rfl, rfl⟩ |
    ⟨v, rfl, rfl⟩
  · exact .inl (by rw [hafter])
  · exact .inr (.inl ⟨rfl, rfl⟩)
  · exact .inl rfl
  · exact .inl rfl
  · exact .inr (.inr ⟨rfl, rfl⟩)

end Access

/-! ## Runs -/

section Runs

variable (calls : List (List (Call α)))

/-- What the accesses of a schedule lead to, on a cell that was empty. -/
def ran (is : List Nat) : Threads (Cells α) (Call α) (Access α) (Outcome α) :=
  (Threads.start {} calls).run protocol is

/-- After the schedule, thread `i` is about to make access `a`. -/
def About (is : List Nat) (i : Nat) (a : Access α) : Prop :=
  (ran calls is).next? protocol i = some a

/-- In the course of the schedule, thread `i` made access `a`. -/
def Made (is : List Nat) (i : Nat) (a : Access α) : Prop :=
  (Threads.start {} calls).Makes protocol is i a

/-- In the course of the schedule, thread `i` moved the phase from empty to filling. -/
def Won (is : List Nat) (i : Nat) : Prop :=
  ∃ before after, is = before ++ i :: after ∧ (ran calls before).cells.phase = .empty ∧
    (ran calls (before ++ [i])).cells.phase = .filling

/-- The stage that a run has come to. -/
structure Invariant (is : List Nat) (s : Stage α) : Prop where
  cells : (ran calls is).cells = s.cells
  allows : ∀ i a, About calls is i a → s.Allows i a
  done : ∀ i a, a.Fills → (Made calls is i a ↔ (i, a) ∈ s.done)
  won : ∀ w, s.winner? = some w → Won calls is w
  outcomes : ∀ e ∈ (ran calls is).events, ∀ o, e.outcome = some o →
    o = .absent ∨ ∃ w v, o = .value v ∧ s = .published w v

variable {calls} {is : List Nat} {i j : Nat} {a : Access α} {s : Stage α}

theorem ran_concat (calls : List (List (Call α))) (is : List Nat) (i : Nat) :
    ran calls (is ++ [i]) = (ran calls is).step protocol i :=
  Threads.run_concat is i

theorem Won.concat (h : Won calls is i) (j : Nat) : Won calls (is ++ [j]) i := by
  obtain ⟨before, after, rfl, hempty, hfilling⟩ := h
  exact ⟨before, after ++ [j], by simp, hempty, hfilling⟩

theorem made_concat : Made calls (is ++ [j]) i a ↔ Made calls is i a ∨ i = j ∧ About calls is i a :=
  Threads.makes_concat

theorem invariant_nil (hreturns : ∀ cs ∈ calls, ∀ c ∈ cs, c ≠ .fill .panics) :
    Invariant calls [] .untouched where
  cells := rfl
  allows i a h := by
    obtain ⟨cs, hcs, c, hc, rfl⟩ := Threads.next?_start h
    exact allows_first _ _ (hreturns cs hcs c hc)
  done i a _ := by
    refine ⟨fun h => absurd h (Threads.not_makes_nil i a), fun h => ?_⟩
    cases h
  won w h := by cases h
  outcomes e he := by cases he

/-- A thread that is between two calls and has no call to make does nothing. -/
theorem Invariant.idle (h : Invariant calls is s)
    (hnext : (ran calls is).next? protocol i = none) : Invariant calls (is ++ [i]) s where
  cells := by rw [ran_concat, Threads.step_of_next?_none hnext, h.cells]
  allows j a := by
    rw [About, ran_concat, Threads.step_of_next?_none hnext]
    exact h.allows j a
  done j a hfills := by
    rw [made_concat, ← h.done j a hfills, or_iff_left]
    rintro ⟨rfl, habout⟩
    rw [About, hnext] at habout
    cases habout
  won w hw := (h.won w hw).concat i
  outcomes := by
    rw [ran_concat, Threads.step_of_next?_none hnext]
    exact h.outcomes

theorem Invariant.cells_concat (h : Invariant calls is s) (hnext : About calls is i a) :
    (ran calls (is ++ [i])).cells = (s.after i a).cells := by
  rw [ran_concat, Threads.cells_step hnext, h.cells]
  exact perform_cells (h.allows i a hnext)

theorem Invariant.concat (hreturns : ∀ cs ∈ calls, ∀ c ∈ cs, c ≠ .fill .panics)
    (h : Invariant calls is s) (hnext : About calls is i a) :
    Invariant calls (is ++ [i]) (s.after i a) where
  cells := h.cells_concat hnext
  allows j b hb := by
    have ha := h.allows i a hnext
    rw [About, ran_concat] at hb
    by_cases hij : j = i
    · subst hij
      rcases Threads.next?_step_self hnext hb with hpending | ⟨t, ht, c, hc, rfl⟩
      · rw [h.cells] at hpending
        exact allows_pending ha hpending
      · exact allows_first _ _ (Threads.forall_calls_run hreturns is t ht c hc)
    · rw [Threads.next?_step_of_ne hij] at hb
      exact allows_of_ne hij ha (h.allows j b hb)
  done j b hfills := by
    obtain ⟨hdone, hkeep⟩ := done_after (h.allows i a hnext)
    rw [made_concat, h.done j b hfills]
    by_cases ha : a.Fills
    · rw [hdone ha, List.mem_append, List.mem_singleton, Prod.mk.injEq]
      refine or_congr_right ⟨?_, ?_⟩
      · rintro ⟨rfl, habout⟩
        exact ⟨rfl, Option.some.inj (habout.symm.trans hnext)⟩
      · rintro ⟨rfl, rfl⟩
        exact ⟨rfl, hnext⟩
    · rw [hkeep ha, or_iff_left]
      rintro ⟨rfl, habout⟩
      exact ha (Option.some.inj (habout.symm.trans hnext) ▸ hfills)
  won w hw := by
    rcases winner_after (h.allows i a hnext) hw with hw | ⟨rfl, hempty, hfilling⟩
    · exact (h.won w hw).concat i
    · exact ⟨is, [], rfl, by rw [h.cells, hempty], by rw [h.cells_concat hnext, hfilling]⟩
  outcomes e he o ho := by
    have ha := h.allows i a hnext
    rw [ran_concat, Threads.events_step hnext, h.cells] at he
    rcases List.mem_cons.1 he with rfl | he
    · rcases outcome_of_allows ha ho with ⟨rfl, -⟩ | hvalue
      · exact .inl rfl
      · exact .inr hvalue
    · rcases h.outcomes e he o ho with habsent | ⟨w, v, rfl, hs⟩
      · exact .inl habsent
      · exact .inr ⟨w, v, rfl, after_published hs ha⟩

/-- At every moment of every run the filling has come to some stage. -/
theorem exists_invariant (hreturns : ∀ cs ∈ calls, ∀ c ∈ cs, c ≠ .fill .panics)
    (is : List Nat) : ∃ s, Invariant calls is s := by
  induction is using List.reverseRecOn with
  | nil => exact ⟨.untouched, invariant_nil hreturns⟩
  | append_singleton is i ih =>
    obtain ⟨s, h⟩ := ih
    cases hnext : (ran calls is).next? protocol i with
    | none => exact ⟨s, h.idle hnext⟩
    | some a => exact ⟨s.after i a, h.concat hreturns hnext⟩

end Runs

/-! ## One value for all -/

/-- What the outcome of a call may be, where `V` holds of the value that was made. -/
def Answers (V : α → Prop) : Call α → Outcome α → Prop
  | .get, .absent => True
  | _, .value v => V v
  | _, _ => False

/-- Calls of any number of threads, one row for each thread, fill the cell once. -/
structure FilledOnce (calls : List (List (Call α))) : Prop where
  /-- An initializer is run only if none was run before. -/
  one_initializer : ∀ is i j f g, About calls is i (.makeValue f) → ¬ Made calls is j (.makeValue g)
  one_write : ∀ is i j v w, About calls is i (.writeSlot v) → ¬ Made calls is j (.writeSlot w)
  /-- Who writes the slot has claimed the cell and made the value. -/
  written_by_winner : ∀ is i v, About calls is i (.writeSlot v) →
    Won calls is i ∧ Made calls is i (.makeValue (.returns v))
  written_before_ready : ∀ is i j v, About calls is i (.writeSlot v) → ¬ Made calls is j .publish
  read_after_write : ∀ is i, About calls is i .readSlot → ∃ j v, Made calls is j (.writeSlot v)
  /-- What was written stays in the slot. -/
  slot_kept : ∀ is i v, Made calls is i (.writeSlot v) → (ran calls is).cells.slot = some v
  phase_forward : ∀ is i,
    (ran calls (is ++ [i])).cells.phase = (ran calls is).cells.phase ∨
    (ran calls is).cells.phase = .empty ∧ (ran calls (is ++ [i])).cells.phase = .filling ∨
    (ran calls is).cells.phase = .filling ∧ (ran calls (is ++ [i])).cells.phase = .ready
  /-- The calls that a thread has ended gave the value that was made, or nothing to those that only
  looked for it. -/
  answers : ∀ is i cs, calls[i]? = some cs → ∃ ended, ended <+: cs ∧
    List.Forall₂ (Answers fun v => ∃ j, Made calls is j (.makeValue (.returns v))) ended
      ((ran calls is).outcomes i)
  /-- Once a call has given a value, no call gives nothing. The latest event comes first. -/
  no_absence_after_value : ∀ is, (ran calls is).events.Pairwise fun later earlier =>
    (∃ v, earlier.outcome = some (.value v)) → later.outcome ≠ some .absent

section

variable {calls : List (List (Call α))} {is : List Nat} {i : Nat} {s : Stage α}

/-- All outcomes are the value that was made, or nothing. -/
theorem Invariant.outcome (h : Invariant calls is s) {o : Outcome α}
    (ho : o ∈ (ran calls is).outcomes i) :
    o = .absent ∨ ∃ v, o = .value v ∧ ∃ j, Made calls is j (.makeValue (.returns v)) := by
  rw [Threads.outcomes, List.mem_reverse, List.mem_filterMap] at ho
  obtain ⟨e, he, ho⟩ := ho
  rcases h.outcomes e (List.mem_filter.1 he).1 o ho with habsent | ⟨w, v, rfl, rfl⟩
  · exact .inl habsent
  · exact .inr ⟨v, rfl, w, (h.done w (.makeValue _) trivial).2 List.mem_cons_self⟩

/-- Only calls that look for the value can find nothing. -/
theorem exists_forall₂_absent (is : List Nat) {cs : List (Call α)} (hcs : calls[i]? = some cs) :
    ∃ ended, ended <+: cs ∧
      List.Forall₂ (fun c o => o = .absent → c = .get) ended ((ran calls is).outcomes i) := by
  refine Threads.forall₂_outcomes (p := protocol)
    (B := fun (c : Call α) (a : Access α) => a = .peek → c = .get) ?_ ?_ ?_ _ calls is hcs
  · intro c hc
    cases c with
    | get => rfl
    | fill f => cases hc
  · intro c a b s t _ hperform hb
    subst hb
    have hb := congrArg Prod.snd hperform
    cases a with
    | makeValue f => cases f <;> cases hb
    | _ => simp only [protocol, Access.perform] at hb; grind
  · intro c a s t o hc hperform ho
    subst ho
    have ho := congrArg Prod.snd hperform
    cases a with
    | peek => exact hc rfl
    | makeValue f => cases f <;> cases ho
    | _ => simp only [protocol, Access.perform] at ho; grind

/-- A call finds nothing only while the cell is not ready, so not after a call that gave a value. -/
theorem pairwise_no_absence (hreturns : ∀ cs ∈ calls, ∀ c ∈ cs, c ≠ .fill .panics)
    (is : List Nat) :
    (ran calls is).events.Pairwise fun later earlier =>
      (∃ v, earlier.outcome = some (.value v)) → later.outcome ≠ some .absent := by
  induction is using List.reverseRecOn with
  | nil => exact .nil
  | append_singleton is i ih =>
    rw [ran_concat]
    cases hnext : (ran calls is).next? protocol i with
    | none => rwa [Threads.step_of_next?_none hnext]
    | some a =>
      obtain ⟨s, h⟩ := exists_invariant hreturns is
      rw [Threads.events_step hnext]
      refine .cons ?_ ih
      rintro e he ⟨v, hvalue⟩ habsent
      rcases h.outcomes e he _ hvalue with heq | ⟨w, _, -, rfl⟩
      · cases heq
      · rw [h.cells] at habsent
        rcases outcome_of_allows (h.allows i a hnext) habsent with ⟨-, hready⟩ | ⟨_, _, heq, -⟩
        · exact hready rfl
        · cases heq

end

/-- **The cell is filled once.** Whatever calls the threads make, as long as their initializers
return, and however their accesses are interleaved: one initializer is run, the thread that claimed
the cell writes its value into the slot, and every call gives that value or, if it only looked, at
first nothing. -/
theorem filledOnce (calls : List (List (Call α)))
    (hreturns : ∀ cs ∈ calls, ∀ c ∈ cs, c ≠ .fill .panics) : FilledOnce calls where
  one_initializer is i j f g habout hmade := by
    obtain ⟨s, h⟩ := exists_invariant hreturns is
    obtain ⟨v, -, rfl⟩ := h.allows i _ habout
    cases (h.done j (.makeValue g) trivial).1 hmade
  one_write is i j v w habout hmade := by
    obtain ⟨s, h⟩ := exists_invariant hreturns is
    obtain rfl := h.allows i _ habout
    simpa [Stage.done] using (h.done j (.writeSlot w) trivial).1 hmade
  written_by_winner is i v habout := by
    obtain ⟨s, h⟩ := exists_invariant hreturns is
    obtain rfl := h.allows i _ habout
    exact ⟨h.won i rfl, (h.done i (.makeValue _) trivial).2 List.mem_cons_self⟩
  written_before_ready is i j v habout hmade := by
    obtain ⟨s, h⟩ := exists_invariant hreturns is
    obtain rfl := h.allows i _ habout
    simpa [Stage.done] using (h.done j .publish trivial).1 hmade
  read_after_write is i habout := by
    obtain ⟨s, h⟩ := exists_invariant hreturns is
    obtain ⟨w, v, rfl⟩ := h.allows i _ habout
    exact ⟨w, v, (h.done w (.writeSlot v) trivial).2 (by simp [Stage.done])⟩
  slot_kept is i v hmade := by
    obtain ⟨s, h⟩ := exists_invariant hreturns is
    have hdone := (h.done i (.writeSlot v) trivial).1 hmade
    rw [h.cells]
    cases s <;> simp_all [Stage.done, Stage.cells]
  phase_forward is i := by
    obtain ⟨s, h⟩ := exists_invariant hreturns is
    cases hnext : (ran calls is).next? protocol i with
    | none => exact .inl (by rw [ran_concat, Threads.step_of_next?_none hnext])
    | some a =>
      rw [h.cells_concat hnext, h.cells]
      exact phase_after (h.allows i a hnext)
  answers is i cs hcs := by
    obtain ⟨s, h⟩ := exists_invariant hreturns is
    obtain ⟨ended, hprefix, hended⟩ := exists_forall₂_absent is hcs
    obtain ⟨hlength, habsent⟩ := List.forall₂_iff_zip.1 hended
    refine ⟨ended, hprefix, List.forall₂_iff_zip.2 ⟨hlength, fun {c o} hmem => ?_⟩⟩
    rcases h.outcome (List.of_mem_zip hmem).2 with rfl | ⟨v, rfl, hv⟩
    · obtain rfl := habsent hmem rfl
      trivial
    · cases c <;> exact hv
  no_absence_after_value := pairwise_no_absence hreturns

/-- A thread that claims the cell while another one has looked at it: the other one waits, and both
give the value that was made. -/
theorem filledOnce_two_threads :
    (∀ cs ∈ [[Call.fill (.returns 7)], [.get, .fill (.returns 8), .get]], ∀ c ∈ cs,
      c ≠ .fill .panics) ∧
    FilledOnce [[Call.fill (.returns 7)], [.get, .fill (.returns 8), .get]] ∧
    (ran [[Call.fill (.returns 7)], [.get, .fill (.returns 8), .get]]
      [0, 1, 1, 0, 1, 1, 0, 0, 0, 1, 1, 0, 1, 1]).outcomes 1 = [.absent, .value 7, .value 7] := by
  have hreturns : ∀ cs ∈ [[Call.fill (.returns 7)], [.get, .fill (.returns 8), .get]], ∀ c ∈ cs,
      c ≠ .fill .panics := by decide
  exact ⟨hreturns, filledOnce _ hreturns, by decide⟩

end KeyDigest.Once.Atomic
