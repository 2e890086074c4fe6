import Mathlib
import KeyDigest.Threads

/-!
# Who makes which access

At every moment a thread has at most one access that it is about to make, and scheduling the thread
is making it. What has been made is then a matter of the schedule alone: a prefix of it leads to a
moment at which the access was about to be made, and the thread comes next.

* `step_of_next?`: what one step does to cells, threads and events.
* `makes_concat`: what a schedule with one more step makes.
* `Apart`: calls that do not overlap.
* `forall₂_outcomes`: the outcomes of a thread answer its calls one by one, in their order.
-/

namespace KeyDigest

variable {σ κ α ω : Type}

/-- The access with which the call goes on after access `a`, if it does. -/
def Next.pending (a : α) : Next α ω → Option α
  | .finish _ => none
  | .access b => some b
  | .again => some a

/-- The outcome of the call, if it is over. -/
def Next.outcome? : Next α ω → Option ω
  | .finish o => some o
  | .access _ | .again => none

namespace Threads

/-! ## One step -/

/-- The access that thread `i` makes if it is scheduled now. -/
def next? (p : Protocol σ κ α ω) (m : Threads σ κ α ω) (i : Nat) : Option α :=
  (m.threads[i]?.bind (nextAccess? p)).map Prod.fst

section Step

variable {p : Protocol σ κ α ω} {m : Threads σ κ α ω} {i j : Nat} {a b : α}

theorem step_of_next?_none (h : m.next? p i = none) : m.step p i = m := by
  rw [next?, Option.map_eq_none_iff] at h
  rw [step, h]

/-- What one step does. -/
theorem step_of_next? (h : m.next? p i = some a) :
    ∃ t calls, m.threads[i]? = some t ∧ nextAccess? p t = some (a, calls) ∧
      m.step p i = ⟨(p.perform a m.cells).1,
        m.threads.set i ⟨(p.perform a m.cells).2.pending a, calls⟩,
        ⟨i, a, (p.perform a m.cells).2.outcome?⟩ :: m.events⟩ := by
  obtain ⟨⟨_, calls⟩, hbind, rfl⟩ := Option.map_eq_some_iff.1 h
  obtain ⟨t, hthread, hnext⟩ := Option.bind_eq_some_iff.1 hbind
  refine ⟨t, calls, hthread, hnext, ?_⟩
  rw [step, hbind]
  rcases hperform : p.perform _ m.cells with ⟨cells, _ | _ | _⟩ <;> simp only [hperform] <;> rfl

theorem cells_step (h : m.next? p i = some a) : (m.step p i).cells = (p.perform a m.cells).1 := by
  obtain ⟨t, calls, -, -, hstep⟩ := step_of_next? h
  rw [hstep]

theorem events_step (h : m.next? p i = some a) :
    (m.step p i).events = ⟨i, a, (p.perform a m.cells).2.outcome?⟩ :: m.events := by
  obtain ⟨t, calls, -, -, hstep⟩ := step_of_next? h
  rw [hstep]

/-- A step of one thread leaves the others where they are. -/
theorem threads_step_of_ne (h : j ≠ i) : (m.step p i).threads[j]? = m.threads[j]? := by
  cases hnext : m.next? p i with
  | none => rw [step_of_next?_none hnext]
  | some a =>
    obtain ⟨t, calls, -, -, hstep⟩ := step_of_next? hnext
    rw [hstep, List.getElem?_set_ne h.symm]

theorem next?_step_of_ne (h : j ≠ i) : (m.step p i).next? p j = m.next? p j := by
  rw [next?, next?, threads_step_of_ne h]

/-- After its own step a thread goes on with its call or makes the first access of another one. -/
theorem next?_step_self (h : m.next? p i = some a) (hb : (m.step p i).next? p i = some b) :
    (p.perform a m.cells).2.pending a = some b ∨
      ∃ t ∈ m.threads, ∃ call ∈ t.calls, b = p.first call := by
  obtain ⟨t, calls, hthread, hnext, hstep⟩ := step_of_next? h
  have hlt : i < m.threads.length := (List.getElem?_eq_some_iff.1 hthread).1
  have hcalls : calls ⊆ t.calls := by
    unfold nextAccess? at hnext
    split at hnext <;> simp_all
  rw [next?, hstep, List.getElem?_set_self hlt, Option.bind_some, nextAccess?] at hb
  cases hpending : (p.perform a m.cells).2.pending a with
  | some c =>
    rw [hpending] at hb
    exact .inl hb
  | none =>
    cases calls with
    | nil => simp [hpending] at hb
    | cons call calls =>
      simp only [hpending, Option.map_some, Option.some.injEq] at hb
      exact .inr ⟨t, List.mem_of_getElem? hthread, call, hcalls List.mem_cons_self, hb.symm⟩

/-- A thread whose call goes on is about to go on with it. -/
theorem next?_step_of_pending (h : m.next? p i = some a)
    (hb : (p.perform a m.cells).2.pending a = some b) : (m.step p i).next? p i = some b := by
  obtain ⟨t, calls, hthread, -, hstep⟩ := step_of_next? h
  have hlt : i < m.threads.length := (List.getElem?_eq_some_iff.1 hthread).1
  rw [next?, hstep, List.getElem?_set_self hlt, hb]
  rfl

/-- A call that is still to be made was so before. -/
theorem calls_step {t : Thread κ α} (ht : t ∈ (m.step p i).threads) :
    ∃ t' ∈ m.threads, t.calls ⊆ t'.calls := by
  cases hnext : m.next? p i with
  | none =>
    rw [step_of_next?_none hnext] at ht
    exact ⟨t, ht, List.Subset.refl _⟩
  | some a =>
    obtain ⟨t', calls, hthread, hcalls, hstep⟩ := step_of_next? hnext
    rw [hstep] at ht
    rcases List.mem_or_eq_of_mem_set ht with ht | rfl
    · exact ⟨t, ht, List.Subset.refl _⟩
    · refine ⟨t', List.mem_of_getElem? hthread, ?_⟩
      unfold nextAccess? at hcalls
      split at hcalls <;> simp_all

/-- The outcomes of a thread grow by that of its own step, if the step ends a call. -/
theorem outcomes_step (h : m.next? p i = some a) (j : Nat) :
    (m.step p i).outcomes j =
      m.outcomes j ++ if i = j then (p.perform a m.cells).2.outcome?.toList else [] := by
  rw [outcomes, events_step h, outcomes]
  by_cases hij : i = j
  · cases (p.perform a m.cells).2.outcome? <;> simp [hij]
  · simp [hij]

end Step

/-! ## Whole runs -/

section Run

variable {p : Protocol σ κ α ω} {m : Threads σ κ α ω}

theorem run_concat (is : List Nat) (i : Nat) : m.run p (is ++ [i]) = (m.run p is).step p i := by
  rw [run_append, run_cons, run_nil]

/-- At the start every thread is about to make the first access of a call. -/
theorem next?_start {cells : σ} {calls : List (List κ)} {i : Nat} {a : α}
    (h : (start cells calls : Threads σ κ α ω).next? p i = some a) :
    ∃ cs ∈ calls, ∃ c ∈ cs, a = p.first c := by
  obtain ⟨⟨_, rest⟩, hbind, rfl⟩ := Option.map_eq_some_iff.1 h
  obtain ⟨t, ht, hnext⟩ := Option.bind_eq_some_iff.1 hbind
  obtain ⟨cs, hcs, rfl⟩ := List.mem_map.1 (List.mem_of_getElem? ht)
  cases cs with
  | nil => cases hnext
  | cons c cs =>
    cases hnext
    exact ⟨_, hcs, c, List.mem_cons_self, rfl⟩

theorem length_threads_run (cells : σ) (calls : List (List κ)) (is : List Nat) :
    ((start cells calls : Threads σ κ α ω).run p is).threads.length = calls.length := by
  apply run_induction (I := fun m => m.threads.length = calls.length)
  · simp [start]
  · intro m i ih
    cases hnext : m.next? p i with
    | none => rwa [step_of_next?_none hnext]
    | some a =>
      obtain ⟨t, rest, -, -, hstep⟩ := step_of_next? hnext
      rw [hstep, List.length_set, ih]

/-- All calls that are still to be made are among those given at the start. -/
theorem forall_calls_run {Q : κ → Prop} {cells : σ} {calls : List (List κ)}
    (h : ∀ cs ∈ calls, ∀ c ∈ cs, Q c) (is : List Nat) :
    ∀ t ∈ ((start cells calls : Threads σ κ α ω).run p is).threads, ∀ c ∈ t.calls, Q c := by
  apply run_induction (I := fun m => ∀ t ∈ m.threads, ∀ c ∈ t.calls, Q c)
  · intro t ht
    obtain ⟨cs, hcs, rfl⟩ := List.mem_map.1 ht
    exact h cs hcs
  · intro m i ih t ht c hc
    obtain ⟨t', ht', hsub⟩ := calls_step ht
    exact ih t' ht' c (hsub hc)

variable (p m) in
/-- In the run of a schedule, thread `i` makes access `a`. -/
def Makes (is : List Nat) (i : Nat) (a : α) : Prop :=
  ∃ before after, is = before ++ i :: after ∧ (m.run p before).next? p i = some a

theorem not_makes_nil (i : Nat) (a : α) : ¬ Makes p m [] i a := by
  rintro ⟨before, after, h, -⟩
  simp at h

theorem makes_concat {is : List Nat} {i j : Nat} {a : α} :
    Makes p m (is ++ [j]) i a ↔
      Makes p m is i a ∨ i = j ∧ (m.run p is).next? p i = some a := by
  constructor
  · rintro ⟨before, after, h, hnext⟩
    rcases List.eq_nil_or_concat after with rfl | ⟨after, k, rfl⟩
    · obtain ⟨rfl, hij⟩ := List.append_inj' h rfl
      exact .inr ⟨(List.singleton_inj.1 hij).symm, hnext⟩
    · rw [List.concat_eq_append, ← List.cons_append, ← List.append_assoc] at h
      exact .inl ⟨before, after, (List.append_inj' h rfl).1, hnext⟩
  · rintro (⟨before, after, rfl, hnext⟩ | ⟨rfl, hnext⟩)
    · exact ⟨before, after ++ [j], by simp, hnext⟩
    · exact ⟨is, [], rfl, hnext⟩

end Run

/-! ## Calls that do not overlap -/

section Apart

variable {p : Protocol σ κ α ω} {cells : σ} {calls : List (List κ)} {is : List Nat} {i j : Nat}
  {a b : α}

/-- The events, latest first, are those of calls that do not overlap: what follows an access that
does not end its call is done by the same thread. -/
def Apart (events : List (Event α ω)) : Prop :=
  events.IsChain fun later earlier => earlier.outcome = none → later.thread = earlier.thread

theorem Apart.of_step {m : Threads σ κ α ω} (h : Apart (m.step p i).events) : Apart m.events := by
  cases hnext : m.next? p i with
  | none => rwa [step_of_next?_none hnext] at h
  | some a =>
    rw [events_step hnext] at h
    exact h.tail

/-- Where calls do not overlap, only the thread of the latest event can be inside a call. -/
theorem exists_events_eq_of_inside {t : Thread κ α}
    (hapart : Apart ((start cells calls : Threads σ κ α ω).run p is).events)
    (ht : ((start cells calls : Threads σ κ α ω).run p is).threads[j]? = some t)
    (ha : t.access = some a) :
    ∃ e rest, ((start cells calls : Threads σ κ α ω).run p is).events = e :: rest ∧
      e.thread = j ∧ e.outcome = none := by
  induction is using List.reverseRecOn with
  | nil =>
    obtain ⟨cs, -, rfl⟩ := List.mem_map.1 (List.mem_of_getElem? ht)
    cases ha
  | append_singleton is i ih =>
    rw [run_concat] at hapart ht ⊢
    cases hnext : ((start cells calls : Threads σ κ α ω).run p is).next? p i with
    | none =>
      rw [step_of_next?_none hnext] at hapart ht ⊢
      exact ih hapart ht
    | some b =>
      by_cases hij : j = i
      · subst hij
        obtain ⟨t', rest, ht', -, hstep⟩ := step_of_next? hnext
        rw [hstep, List.getElem?_set_self (List.getElem?_eq_some_iff.1 ht').1] at ht
        obtain rfl := Option.some.inj ht
        refine ⟨_, _, events_step hnext, rfl, ?_⟩
        revert ha
        cases (p.perform b _).2 <;> simp [Next.pending, Next.outcome?]
      · rw [threads_step_of_ne hij] at ht
        obtain ⟨e, rest, hevents, hthread, houtcome⟩ := ih hapart.of_step ht
        rw [events_step hnext, hevents] at hapart
        exact absurd ((List.isChain_cons_cons.1 hapart).1 houtcome) (hthread ▸ Ne.symm hij)

/-- Where calls do not overlap, the other threads are between two calls while a thread acts. -/
theorem exists_eq_first_of_apart
    (hapart : Apart (((start cells calls : Threads σ κ α ω).run p is).step p i).events)
    (ha : ((start cells calls : Threads σ κ α ω).run p is).next? p i = some a) (hij : j ≠ i)
    (hb : ((start cells calls : Threads σ κ α ω).run p is).next? p j = some b) :
    ∃ c, b = p.first c := by
  obtain ⟨⟨_, rest⟩, hbind, rfl⟩ := Option.map_eq_some_iff.1 hb
  obtain ⟨⟨_ | b, pending⟩, ht, hnext⟩ := Option.bind_eq_some_iff.1 hbind
  · cases pending with
    | nil => cases hnext
    | cons c cs =>
      cases hnext
      exact ⟨c, rfl⟩
  · obtain ⟨e, rest, hevents, hthread, houtcome⟩ :=
      exists_events_eq_of_inside hapart.of_step ht rfl
    rw [events_step ha, hevents] at hapart
    exact absurd ((List.isChain_cons_cons.1 hapart).1 houtcome) (hthread ▸ Ne.symm hij)

end Apart

/-! ## Calls and their outcomes -/

section Outcomes

variable {p : Protocol σ κ α ω} {B : κ → α → Prop} {P : κ → ω → Prop}

/-- Of the calls `cs` of a thread the first ones have the outcomes `os`; then comes the call that
the thread is inside of, if it is inside of one, and then those that are still to be made. -/
def Answered (B : κ → α → Prop) (P : κ → ω → Prop) (cs : List κ) (t : Thread κ α)
    (os : List ω) : Prop :=
  ∃ made, List.Forall₂ P made os ∧
    match t.access with
    | none => cs = made ++ t.calls
    | some a => ∃ c, B c a ∧ cs = made ++ c :: t.calls

theorem Answered.exists_isPrefix {cs : List κ} {t : Thread κ α} {os : List ω}
    (h : Answered B P cs t os) : ∃ made, made <+: cs ∧ List.Forall₂ P made os := by
  obtain ⟨made, hmade, hcalls⟩ := h
  refine ⟨made, ?_, hmade⟩
  split at hcalls
  · exact ⟨t.calls, hcalls.symm⟩
  · obtain ⟨c, -, hcalls⟩ := hcalls
    exact ⟨c :: t.calls, hcalls.symm⟩

theorem Answered.of_nextAccess? (first : ∀ c, B c (p.first c)) {cs calls : List κ}
    {t : Thread κ α} {os : List ω} {a : α} (h : Answered B P cs t os)
    (hnext : nextAccess? p t = some (a, calls)) :
    ∃ made c, List.Forall₂ P made os ∧ B c a ∧ cs = made ++ c :: calls := by
  obtain ⟨made, hmade, hcalls⟩ := h
  obtain ⟨_ | b, _ | ⟨c, rest⟩⟩ := t <;> simp only [nextAccess?] at hnext hcalls
  · cases hnext
  · cases hnext
    exact ⟨made, c, hmade, first c, hcalls⟩
  all_goals
    cases hnext
    obtain ⟨c, hc, hcalls⟩ := hcalls
    exact ⟨made, c, hmade, hc, hcalls⟩

theorem Answered.step (first : ∀ c, B c (p.first c))
    (next : ∀ {c a b s t}, B c a → p.perform a s = (t, .access b) → B c b)
    (finish : ∀ {c a s t o}, B c a → p.perform a s = (t, .finish o) → P c o)
    {m : Threads σ κ α ω} {t : Thread κ α} {cs : List κ} {i : Nat} (ht : m.threads[i]? = some t)
    (h : Answered B P cs t (m.outcomes i)) (j : Nat) :
    ∃ t', (m.step p j).threads[i]? = some t' ∧
      Answered B P cs t' ((m.step p j).outcomes i) := by
  cases hnext : m.next? p j with
  | none =>
    rw [step_of_next?_none hnext]
    exact ⟨t, ht, h⟩
  | some a =>
    rw [outcomes_step hnext]
    by_cases hij : i = j
    · subst hij
      obtain ⟨t', calls, ht', hcalls, hstep⟩ := step_of_next? hnext
      obtain rfl := Option.some.inj (ht.symm.trans ht')
      obtain ⟨made, c, hmade, hc, hcs⟩ := h.of_nextAccess? first hcalls
      refine ⟨_, by rw [hstep, List.getElem?_set_self (List.getElem?_eq_some_iff.1 ht).1], ?_⟩
      rcases hperform : p.perform a m.cells with ⟨s, o | b | _⟩
      · refine ⟨made ++ [c], ?_, by simp [Next.pending, hcs]⟩
        rw [if_pos rfl]
        exact List.rel_append hmade (.cons (finish hc hperform) .nil)
      · exact ⟨made, by simpa [Next.outcome?] using hmade, c, next hc hperform, hcs⟩
      · exact ⟨made, by simpa [Next.outcome?] using hmade, c, hc, hcs⟩
    · rw [threads_step_of_ne hij, if_neg (Ne.symm hij), List.append_nil]
      exact ⟨t, ht, h⟩

/-- The outcomes of a thread answer its first calls, and then it goes on with the others. `B` says
which accesses may belong to a call, and `P` what its outcome has to be. -/
theorem exists_answered (first : ∀ c, B c (p.first c))
    (next : ∀ {c a b s t}, B c a → p.perform a s = (t, .access b) → B c b)
    (finish : ∀ {c a s t o}, B c a → p.perform a s = (t, .finish o) → P c o)
    (cells : σ) (calls : List (List κ)) (is : List Nat) {i : Nat} {cs : List κ}
    (hcs : calls[i]? = some cs) :
    ∃ t, ((start cells calls : Threads σ κ α ω).run p is).threads[i]? = some t ∧
      Answered B P cs t (((start cells calls : Threads σ κ α ω).run p is).outcomes i) := by
  apply run_induction (I := fun m => ∃ t, m.threads[i]? = some t ∧
    Answered B P cs t (m.outcomes i))
  · exact ⟨{ calls := cs }, by simp [start, hcs], [], .nil, rfl⟩
  · intro m j ⟨t, ht, h⟩
    exact h.step first next finish ht j

/-- The outcomes of a thread answer its first calls, in their order. -/
theorem forall₂_outcomes (first : ∀ c, B c (p.first c))
    (next : ∀ {c a b s t}, B c a → p.perform a s = (t, .access b) → B c b)
    (finish : ∀ {c a s t o}, B c a → p.perform a s = (t, .finish o) → P c o)
    (cells : σ) (calls : List (List κ)) (is : List Nat) {i : Nat} {cs : List κ}
    (hcs : calls[i]? = some cs) :
    ∃ made, made <+: cs ∧
      List.Forall₂ P made (((start cells calls : Threads σ κ α ω).run p is).outcomes i) := by
  obtain ⟨t, -, h⟩ := exists_answered first next finish cells calls is hcs
  exact h.exists_isPrefix

/-- What a thread is about to make belongs to one of its own calls. -/
theorem exists_call_of_next? (first : ∀ c, B c (p.first c))
    (next : ∀ {c a b s t}, B c a → p.perform a s = (t, .access b) → B c b)
    {cells : σ} {calls : List (List κ)} {is : List Nat} {i : Nat} {a : α}
    (h : ((start cells calls : Threads σ κ α ω).run p is).next? p i = some a) :
    ∃ cs, calls[i]? = some cs ∧ ∃ c ∈ cs, B c a := by
  obtain ⟨⟨_, rest⟩, hbind, rfl⟩ := Option.map_eq_some_iff.1 h
  obtain ⟨t, ht, hnext⟩ := Option.bind_eq_some_iff.1 hbind
  have hlength : i < calls.length := by
    rw [← length_threads_run (p := p) (ω := ω) cells calls is]
    exact (List.getElem?_eq_some_iff.1 ht).1
  refine ⟨calls[i], List.getElem?_eq_getElem hlength, ?_⟩
  obtain ⟨t', ht', hanswered⟩ := exists_answered (P := fun _ _ => True) first next
    (fun _ _ => trivial) cells calls is (List.getElem?_eq_getElem hlength)
  obtain rfl := Option.some.inj (ht.symm.trans ht')
  obtain ⟨made, c, -, hc, hcs⟩ := hanswered.of_nextAccess? first hnext
  exact ⟨c, hcs ▸ by simp, hc⟩

/-- What a thread has made belongs to one of its own calls. -/
theorem exists_call_of_mem_events (first : ∀ c, B c (p.first c))
    (next : ∀ {c a b s t}, B c a → p.perform a s = (t, .access b) → B c b)
    (cells : σ) (calls : List (List κ)) (is : List Nat) :
    ∀ e ∈ ((start cells calls : Threads σ κ α ω).run p is).events,
      ∃ cs, calls[e.thread]? = some cs ∧ ∃ c ∈ cs, B c e.access := by
  induction is using List.reverseRecOn with
  | nil => simp [start]
  | append_singleton is i ih =>
    rw [run_concat]
    cases hnext : ((start cells calls : Threads σ κ α ω).run p is).next? p i with
    | none => rwa [step_of_next?_none hnext]
    | some a =>
      rw [events_step hnext, List.forall_mem_cons]
      exact ⟨exists_call_of_next? first next hnext, ih⟩

end Outcomes

end Threads

end KeyDigest
