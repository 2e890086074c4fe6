import KeyDigest.Capabilities.Detection
import KeyDigest.Proofs.Threads.History

/-!
# Which word an override shows

Setting an override is two stores and getting it is two loads, and the accesses of any number of
threads are interleaved in any way. A thread that has seen the flag may load a word that was stored
later, or that of a call which was cleared in the meantime; but the flag is only raised after a word
was stored, so it never loads the word that the cell held at the beginning. Calls that do not
overlap show the word of the latest call that set one, unless it was cleared.

* `isSome_lastStored?`: behind the flag there is a word that was stored.
* `Settled.concat`, `settled`: what flag and word say about the calls so far, if these do not
  overlap.
* `inForce_eq_some_iff`: which word these calls leave in force.

**Theorem (`onlySetWords`).** What a get reports, for all interleavings and for calls apart.
-/

namespace KeyDigest.Override

/-! ## Calls and their accesses -/

/-- The accesses that a call is made of. -/
def Call.Makes : Call → Access → Prop
  | set c, .storeWord d => d = c
  | set _, .raise => True
  | clear, .lower => True
  | get, .loadFlag => True
  | get, .loadWord => True
  | _, _ => False

theorem makes_first (c : Call) : c.Makes (protocol.first c) := by
  cases c <;> trivial

theorem makes_access {c : Call} {a b : Access} {s t : Cells} (ha : c.Makes a)
    (h : protocol.perform a s = (t, .access b)) : c.Makes b := by
  have hb := congrArg Prod.snd h
  cases a with
  | storeWord d =>
    cases c with
    | set c =>
      cases hb
      trivial
    | _ => cases ha
  | loadFlag =>
    cases c with
    | get =>
      simp only [protocol, Access.perform] at hb
      split at hb <;> cases hb
      trivial
    | _ => cases ha
  | _ => cases hb

/-- How a call goes on: a word that was stored is followed by the flag, and a flag that was seen
raised by the word. -/
theorem pending_cases {a b : Access} {s : Cells} (h : (a.perform s).2.pending a = some b) :
    (∃ c, a = .storeWord c ∧ b = .raise) ∨ a = .loadFlag ∧ s.raised ∧ b = .loadWord := by
  cases a with
  | storeWord c => exact .inl ⟨c, rfl, (Option.some.inj h).symm⟩
  | loadFlag =>
    simp only [Access.perform] at h
    split at h
    · next hraised => exact .inr ⟨rfl, hraised, (Option.some.inj h).symm⟩
    · cases h
  | _ => cases h

/-- An access that comes after another one of its call. -/
def Access.Late : Access → Prop
  | raise | loadWord => True
  | _ => False

theorem not_late_first (c : Call) : ¬ (protocol.first c).Late := by
  cases c <;> exact id

/-- The word that an access stores. -/
def Access.stored? : Access → Option Capabilities
  | storeWord c => some c
  | _ => none

/-- The call that begins with an access. -/
def Access.call? : Access → Option Call
  | storeWord c => some (.set c)
  | lower => some .clear
  | loadFlag => some .get
  | raise | loadWord => none

/-! ## Runs -/

section Runs

variable (calls : List (List Call))

/-- What the accesses of a schedule lead to, without an override at the beginning. -/
def ran (is : List Nat) : Threads Cells Call Access Outcome :=
  (Threads.start {} calls).run protocol is

/-- After the schedule, thread `i` is about to make access `a`. -/
def About (is : List Nat) (i : Nat) (a : Access) : Prop :=
  (ran calls is).next? protocol i = some a

/-- After the schedule, the next access of thread `i` ends a call with outcome `o`. -/
def Ends (is : List Nat) (i : Nat) (o : Outcome) : Prop :=
  ∃ a, About calls is i a ∧ (a.perform (ran calls is).cells).2.outcome? = some o

/-- The word that was stored last. -/
def lastStored? (is : List Nat) : Option Capabilities :=
  (ran calls is).events.findSome? (·.access.stored?)

/-- The calls that were begun, earliest first. -/
def begun (is : List Nat) : List Call :=
  ((ran calls is).events.filterMap (·.access.call?)).reverse

variable {calls} {is : List Nat} {i j : Nat} {a b : Access}

theorem ran_concat (calls : List (List Call)) (is : List Nat) (i : Nat) :
    ran calls (is ++ [i]) = (ran calls is).step protocol i :=
  Threads.run_concat is i

theorem ran_concat_of_idle (h : (ran calls is).next? protocol i = none) :
    ran calls (is ++ [i]) = ran calls is := by
  rw [ran_concat, Threads.step_of_next?_none h]

theorem cells_concat (h : About calls is i a) :
    (ran calls (is ++ [i])).cells = (a.perform (ran calls is).cells).1 := by
  rw [ran_concat, Threads.cells_step h]
  rfl

theorem lastStored?_concat (h : About calls is i a) :
    lastStored? calls (is ++ [i]) = a.stored?.or (lastStored? calls is) := by
  rw [lastStored?, ran_concat, Threads.events_step h, List.findSome?_cons]
  cases a.stored? <;> rfl

theorem begun_concat (h : About calls is i a) :
    begun calls (is ++ [i]) = begun calls is ++ a.call?.toList := by
  rw [begun, ran_concat, Threads.events_step h, List.filterMap_cons]
  cases a.call? <;> simp [begun]

/-- A thread is inside a call if it was so before or has just begun the call. -/
theorem about_concat_late (h : About calls is i a) (hb : About calls (is ++ [i]) j b)
    (hlate : b.Late) :
    j = i ∧ (a.perform (ran calls is).cells).2.pending a = some b ∨
      j ≠ i ∧ About calls is j b := by
  rw [About, ran_concat] at hb
  by_cases hij : j = i
  · subst hij
    rcases Threads.next?_step_self h hb with hpending | ⟨-, -, c, -, rfl⟩
    · exact .inl ⟨rfl, hpending⟩
    · exact absurd hlate (not_late_first c)
  · rw [Threads.next?_step_of_ne hij] at hb
    exact .inr ⟨hij, hb⟩

/-! ## All interleavings -/

theorem word_eq (calls : List (List Call)) (is : List Nat) :
    (ran calls is).cells.word = (lastStored? calls is).getD .none := by
  induction is using List.reverseRecOn with
  | nil => rfl
  | append_singleton is i ih =>
    cases hnext : (ran calls is).next? protocol i with
    | none => rw [lastStored?, ran_concat_of_idle hnext, ih, lastStored?]
    | some a =>
      rw [cells_concat hnext, lastStored?_concat hnext]
      cases a with
      | storeWord c => rfl
      | _ => exact ih

/-- **Behind the flag there is a word that was stored**: where the flag is raised, where a thread is
about to raise it, and where a thread has seen it raised. -/
theorem isSome_lastStored? (calls : List (List Call)) (is : List Nat) :
    ((ran calls is).cells.raised → (lastStored? calls is).isSome) ∧
      ∀ i a, About calls is i a → a.Late → (lastStored? calls is).isSome := by
  induction is using List.reverseRecOn with
  | nil =>
    refine ⟨fun h => absurd h Bool.false_ne_true, fun i a habout hlate => ?_⟩
    obtain ⟨-, -, c, -, rfl⟩ := Threads.next?_start habout
    exact absurd hlate (not_late_first c)
  | append_singleton is i ih =>
    cases hnext : (ran calls is).next? protocol i with
    | none => simpa only [About, lastStored?, ran_concat_of_idle hnext] using ih
    | some a =>
      have hkeep : (lastStored? calls is).isSome → (lastStored? calls (is ++ [i])).isSome := by
        rw [lastStored?_concat hnext]
        cases a.stored? <;> simp
      have hstore : ∀ c, a = .storeWord c → (lastStored? calls (is ++ [i])).isSome := by
        rintro c rfl
        rw [lastStored?_concat hnext]
        rfl
      refine ⟨fun hraised => ?_, fun j b habout hlate => ?_⟩
      · rw [cells_concat hnext] at hraised
        cases a with
        | storeWord c => exact hstore c rfl
        | raise => exact hkeep (ih.2 i _ hnext trivial)
        | lower => cases hraised
        | loadFlag | loadWord => exact hkeep (ih.1 hraised)
      · rcases about_concat_late hnext habout hlate with ⟨-, hpending⟩ | ⟨-, habout⟩
        · rcases pending_cases hpending with ⟨c, rfl, -⟩ | ⟨rfl, hraised, -⟩
          · exact hstore c rfl
          · exact hkeep (ih.1 hraised)
        · exact hkeep (ih.2 j b habout hlate)

/-- A get that reports a word has loaded the one that was stored last. -/
theorem lastStored?_of_ends {w : Capabilities} (h : Ends calls is i (.got (some w))) :
    lastStored? calls is = some w := by
  obtain ⟨a, habout, houtcome⟩ := h
  cases a with
  | loadWord =>
    have hword : (ran calls is).cells.word = w := by
      simpa [Access.perform, Next.outcome?] using houtcome
    have hsome := (isSome_lastStored? calls is).2 i _ habout trivial
    obtain ⟨v, hv⟩ := Option.isSome_iff_exists.1 hsome
    rw [word_eq, hv] at hword
    rw [hv, ← hword]
    rfl
  | loadFlag =>
    simp only [Access.perform] at houtcome
    split at houtcome <;> cases houtcome
  | _ => cases houtcome

theorem exists_storeWord {w : Capabilities} (h : lastStored? calls is = some w) :
    ∃ e ∈ (ran calls is).events, e.access = .storeWord w ∧
      ∃ cs, calls[e.thread]? = some cs ∧ .set w ∈ cs := by
  obtain ⟨e, he, hstored⟩ := List.exists_of_findSome?_eq_some h
  obtain ⟨cs, hcs, c, hc, hmakes⟩ :=
    Threads.exists_call_of_mem_events makes_first makes_access {} calls is e he
  refine ⟨e, he, ?_⟩
  cases haccess : e.access with
  | storeWord d =>
    rw [haccess] at hstored hmakes
    obtain rfl := Option.some.inj hstored
    cases c with
    | set c =>
      obtain rfl := hmakes
      exact ⟨rfl, cs, hcs, hc⟩
    | _ => cases hmakes
  | _ =>
    rw [haccess] at hstored
    cases hstored

/-! ## Calls that do not overlap -/

/-- The word of the latest call that sets one, unless a call to clear it came after. -/
def inForce (calls : List Call) : Option Capabilities :=
  calls.foldl (fun word call => match call with
    | .set c => some c
    | .clear => none
    | .get => word) none

theorem inForce_concat (calls : List Call) (c : Call) :
    inForce (calls ++ [c]) = match c with
      | .set w => some w
      | .clear => none
      | .get => inForce calls := by
  rw [inForce, List.foldl_append]
  rfl

theorem inForce_eq_some_iff {calls : List Call} {w : Capabilities} :
    inForce calls = some w ↔
      ∃ before after, calls = before ++ .set w :: after ∧ ∀ c ∈ after, c = .get := by
  constructor
  · intro h
    induction calls using List.reverseRecOn with
    | nil => cases h
    | append_singleton calls c ih =>
      rw [inForce_concat] at h
      cases c with
      | set d =>
        obtain rfl := Option.some.inj h
        exact ⟨calls, [], rfl, by simp⟩
      | clear => cases h
      | get =>
        obtain ⟨before, after, rfl, hafter⟩ := ih h
        refine ⟨before, after ++ [.get], by simp, ?_⟩
        rw [List.forall_mem_append, List.forall_mem_singleton]
        exact ⟨hafter, rfl⟩
  · rintro ⟨before, after, rfl, hafter⟩
    induction after using List.reverseRecOn with
    | nil => exact inForce_concat before _
    | append_singleton after c ih =>
      obtain rfl := hafter c (by simp)
      rw [← List.cons_append, ← List.append_assoc, inForce_concat]
      exact ih fun c hc => hafter c (by simp [hc])

/-- What flag and word say about the calls so far. -/
structure Settled (calls : List (List Call)) (is : List Nat) : Prop where
  /-- Once the word is stored, only the flag is missing. -/
  raise : ∀ i, About calls is i .raise → inForce (begun calls is) = some (ran calls is).cells.word
  /-- The flag that was seen raised still is. -/
  loadWord : ∀ i, About calls is i .loadWord → (ran calls is).cells.raised
  current : (∀ i, ¬ About calls is i .raise) →
    (ran calls is).cells.current = inForce (begun calls is)

/-- Where calls do not overlap, no flag is missing while another access is made. -/
theorem not_about_raise (hapart : Threads.Apart ((ran calls is).step protocol i).events)
    (hnext : About calls is i a) (ha : a ≠ .raise) (j : Nat) : ¬ About calls is j .raise := by
  intro habout
  by_cases hij : j = i
  · subst hij
    exact ha (Option.some.inj (hnext.symm.trans habout))
  · obtain ⟨c, hc⟩ := Threads.exists_eq_first_of_apart hapart hnext hij habout
    exact not_late_first c (hc ▸ trivial)

theorem settled_nil (calls : List (List Call)) : Settled calls [] := by
  have hlate : ∀ i a, About calls [] i a → ¬ a.Late := by
    intro i a habout
    obtain ⟨-, -, c, -, rfl⟩ := Threads.next?_start habout
    exact not_late_first c
  exact ⟨fun i h => absurd trivial (hlate i _ h), fun i h => absurd trivial (hlate i _ h),
    fun _ => rfl⟩

/-- Where calls do not overlap, whoever is inside a call has made the last access. -/
theorem pending_of_apart (hapart : Threads.Apart ((ran calls is).step protocol i).events)
    (hnext : About calls is i a) (habout : About calls (is ++ [i]) j b) (hlate : b.Late) :
    (a.perform (ran calls is).cells).2.pending a = some b := by
  rcases about_concat_late hnext habout hlate with ⟨-, hpending⟩ | ⟨hij, habout⟩
  · exact hpending
  · obtain ⟨c, rfl⟩ := Threads.exists_eq_first_of_apart hapart hnext hij habout
    exact absurd hlate (not_late_first c)

theorem Settled.concat (h : Settled calls is)
    (hapart : Threads.Apart ((ran calls is).step protocol i).events)
    (hnext : About calls is i a) : Settled calls (is ++ [i]) where
  raise j habout := by
    rcases pending_cases (pending_of_apart hapart hnext habout trivial) with
      ⟨c, rfl, -⟩ | ⟨-, -, hb⟩
    · rw [begun_concat hnext, cells_concat hnext]
      exact inForce_concat _ (.set c)
    · cases hb
  loadWord j habout := by
    rcases pending_cases (pending_of_apart hapart hnext habout trivial) with
      ⟨-, -, hb⟩ | ⟨rfl, hraised, -⟩
    · cases hb
    · rw [cells_concat hnext]
      exact hraised
  current hno := by
    have hcurrent := fun ha => h.current (not_about_raise hapart hnext ha)
    rw [begun_concat hnext, cells_concat hnext]
    cases a with
    | storeWord c =>
      have hraise : About calls (is ++ [i]) i .raise := by
        rw [About, ran_concat]
        exact Threads.next?_step_of_pending hnext rfl
      exact absurd hraise (hno i)
    | raise =>
      rw [Access.call?, Option.toList_none, List.append_nil, h.raise i hnext]
      rfl
    | lower => exact (inForce_concat _ .clear).symm
    | loadFlag => exact (hcurrent (by simp)).trans (inForce_concat _ .get).symm
    | loadWord =>
      rw [Access.call?, Option.toList_none, List.append_nil]
      exact hcurrent (by simp)

theorem settled (calls : List (List Call)) (is : List Nat)
    (hapart : Threads.Apart (ran calls is).events) : Settled calls is := by
  induction is using List.reverseRecOn with
  | nil => exact settled_nil calls
  | append_singleton is i ih =>
    cases hnext : (ran calls is).next? protocol i with
    | none =>
      rw [ran_concat_of_idle hnext] at hapart
      obtain ⟨hraise, hword, hcurrent⟩ := ih hapart
      constructor <;> simpa only [About, begun, ran_concat_of_idle hnext]
    | some a =>
      rw [ran_concat] at hapart
      exact (ih hapart.of_step).concat hapart hnext

/-- Where calls do not overlap, a get reports what the calls before it have left in force. -/
theorem current_of_ends {o : Option Capabilities}
    (hapart : Threads.Apart (ran calls (is ++ [i])).events) (h : Ends calls is i (.got o)) :
    o = (ran calls is).cells.current ∧ o = inForce (begun calls is) := by
  obtain ⟨a, hnext, houtcome⟩ := h
  rw [ran_concat] at hapart
  have hsettled := settled calls is hapart.of_step
  have hcurrent := fun ha => hsettled.current (not_about_raise hapart hnext ha)
  cases a with
  | loadFlag =>
    rw [← hcurrent (by simp), and_self, Cells.current]
    simp only [Access.perform] at houtcome
    split at houtcome
    · cases houtcome
    · next hraised =>
      cases houtcome
      rw [if_neg hraised]
  | loadWord =>
    cases houtcome
    rw [← hcurrent (by simp), and_self, Cells.current, if_pos (hsettled.loadWord i hnext)]
  | _ => cases houtcome

end Runs

/-! ## The theorem -/

/-- What any number of threads get when they make the given calls. -/
structure OnlySetWords (calls : List (List Call)) : Prop where
  /-- The word that a get reports is the one that was stored last, by a call that sets it. -/
  reported : ∀ is i w, Ends calls is i (.got (some w)) → lastStored? calls is = some w ∧
    ∃ e ∈ (ran calls is).events, e.access = .storeWord w ∧
      ∃ cs, calls[e.thread]? = some cs ∧ .set w ∈ cs
  /-- The word that the cell holds at the beginning is not reported, unless a call sets it. -/
  initial : (∀ cs ∈ calls, .set .none ∉ cs) → ∀ is i, ¬ Ends calls is i (.got (some .none))
  /-- Of calls that do not overlap, a get reports the word of the latest one that sets a word, if
  none that clears it came after. Otherwise what was detected counts. -/
  apart : ∀ is i o, Threads.Apart (ran calls (is ++ [i])).events → Ends calls is i (.got o) →
    (∀ w, o = some w ↔
      ∃ before after, begun calls is = before ++ .set w :: after ∧ ∀ c ∈ after, c = .get) ∧
    ∀ detected, Detection.current detected (ran calls is).cells = ⟨o.getD detected, .host⟩

/-- **An override shows only words that were set**, whatever calls the threads make and however
their accesses are interleaved. A call that initializes the capabilities is one that sets them. -/
theorem onlySetWords (calls : List (List Call)) : OnlySetWords calls where
  reported is i w h := ⟨lastStored?_of_ends h, exists_storeWord (lastStored?_of_ends h)⟩
  initial hset is i h := by
    obtain ⟨e, -, -, cs, hcs, hc⟩ := exists_storeWord (lastStored?_of_ends h)
    exact hset cs (List.mem_of_getElem? hcs) hc
  apart is i o hapart h := by
    obtain ⟨hcurrent, hinForce⟩ := current_of_ends hapart h
    refine ⟨fun w => ?_, fun detected => ?_⟩
    · rw [hinForce, inForce_eq_some_iff]
    · rw [Detection.current, ← hcurrent]

/-- A get that sees the flag of the first call loads the word of the third one, whose flag is still
missing. Made after the first two calls, it finds that the word they left behind was cleared. -/
theorem onlySetWords_straddling :
    let calls := [[Call.set .sse42, .clear, .set .crc], [.get]]
    Ends calls [0, 0, 1, 0, 0] 1 (.got (some .crc)) ∧
    lastStored? calls [0, 0, 1, 0, 0] = some .crc ∧
    Threads.Apart (ran calls [0, 0, 0, 1]).events ∧ Ends calls [0, 0, 0] 1 (.got none) ∧
    (ran calls [0, 0, 0]).cells.word = .sse42 ∧
    Detection.current .sse2 (ran calls [0, 0, 0]).cells = ⟨.sse2, .host⟩ := by
  intro calls
  have hstraddling : Ends calls [0, 0, 1, 0, 0] 1 (.got (some .crc)) :=
    ⟨.loadWord, by unfold About; decide, by decide⟩
  have hapart : Threads.Apart (ran calls [0, 0, 0, 1]).events := by unfold Threads.Apart; decide
  have hcleared : Ends calls [0, 0, 0] 1 (.got none) :=
    ⟨.loadFlag, by unfold About; decide, by decide⟩
  exact ⟨hstraddling, ((onlySetWords calls).reported _ _ _ hstraddling).1, hapart, hcleared,
    by decide, ((onlySetWords calls).apart _ _ _ hapart hcleared).2 _⟩

end KeyDigest.Override
