import KeyDigest.Proofs.Session.Coherence
import KeyDigest.Proofs.Settings.Seed

/-!
# How the environment decides

Each value of the environment either holds a text that means something or counts as not set, and
the two values are read apart from each other. What they mean is then fitted to the machine.

* `Spells`: the texts that mean a preference.
* `Means`, `Ignored`: the bytes of a value that mean something, and those that mean nothing.
* `requested_eq_iff`, `pinned_eq_some_iff`: what the environment asks for.
* `clamp_ne_self_iff`: what comes of a preference on a machine.

**Theorem (`environment_resolved`).** The selection of a process by the bytes of its environment and
the capabilities of its machine.
-/

namespace KeyDigest

open Text

/-! ## The spellings of a preference -/

namespace Preference

/-- What a preference is called, in lower case. -/
def words : Preference → List String
  | auto => ["auto"]
  | portable => ["portable", "fallback", "lookup3"]
  | instruction => ["hwcrc", "crc", "crc32c"]

/-- The text is what the preference is called, in letters of either case. -/
def Spells (t : List Char) (p : Preference) : Prop := ∃ w ∈ p.words, SameUpToCase t w.toList

variable {w : String} {p : Preference}

theorem mem_spellings_iff : (w, p) ∈ spellings ↔ w ∈ p.words := by
  cases p <;> simp [spellings, words]

theorem lower_of_mem_words (h : w ∈ p.words) : w.toList.map Char.toLower = w.toList := by
  revert w
  cases p <;> decide

theorem ascii_of_mem_words (h : w ∈ p.words) : ∀ c ∈ w.toList, c.toNat < 128 := by
  revert w
  cases p <;> simp [words]

/-- No word means two preferences. -/
theorem find?_spellings (h : w ∈ p.words) :
    (spellings.find? fun q => w.toList == q.1.toList) = some (w, p) := by
  revert w
  cases p <;> decide

theorem ofText?_eq_some_iff {s : List Char} : ofText? s = some p ↔ Spells (trim s) p := by
  simp only [ofText?, Option.map_eq_some_iff, Spells, sameUpToCase_iff]
  constructor
  · rintro ⟨⟨w, q⟩, hfind, rfl⟩
    have hword := mem_spellings_iff.mp (List.mem_of_find?_eq_some hfind)
    have hfold : fold s = w.toList := by simpa using List.find?_some hfind
    exact ⟨w, hword, hfold.trans (lower_of_mem_words hword).symm⟩
  · rintro ⟨w, hword, hcase⟩
    have hfold : fold s = w.toList := hcase.trans (lower_of_mem_words hword)
    exact ⟨(w, p), by rw [hfold, find?_spellings hword], rfl⟩

/-- Nothing but ASCII spells a preference. -/
theorem ascii_of_spells {t : List Char} (h : Spells t p) : ∀ c ∈ t, c.toNat < 128 := by
  obtain ⟨w, hword, hcase⟩ := h
  have hascii := ascii_of_mem_words hword
  rw [SameUpToCase] at hcase
  generalize w.toList = letters at hcase hascii
  induction hcase with
  | nil => exact fun _ hc => absurd hc List.not_mem_nil
  | cons hletter _ ih =>
    rw [List.forall_mem_cons] at hascii ⊢
    exact ⟨hletter.toNat_lt hascii.1, ih hascii.2⟩

/-! ## The preference on a machine -/

variable {hasInstruction : Bool}

theorem hasInstruction_of_clamp (h : p.clamp hasInstruction = .instruction) : hasInstruction := by
  cases p <;> cases hasInstruction <;> first | rfl | cases h

theorem clamp_ne_self_iff :
    p.clamp hasInstruction ≠ p ↔ p = .instruction ∧ ¬ hasInstruction := by
  cases p <;> cases hasInstruction <;> decide

theorem clamp_of_ne_self (h : p.clamp hasInstruction ≠ p) : p.clamp hasInstruction = .auto := by
  obtain ⟨rfl, hlacks⟩ := clamp_ne_self_iff.mp h
  exact if_neg hlacks

end Preference

/-! ## The bytes of a value -/

namespace Environment

section Value

variable {α : Type} {value : Array UInt8}

/-- The bytes are a text that means `a`, but for the blanks around it. -/
def Means (meaning : List Char → α → Prop) (value : Array UInt8) (a : α) : Prop :=
  ∃ (text : String) (t : List Char), text.toUTF8.data = value ∧ TrimsTo text.toList t ∧ meaning t a

/-- The bytes are no text, or a text that is blank or means nothing. -/
def Ignored (meaning : List Char → α → Prop) (value : Array UInt8) : Prop :=
  (∀ text : String, text.toUTF8.data ≠ value) ∨
    ∃ (text : String) (t : List Char), text.toUTF8.data = value ∧ TrimsTo text.toList t ∧
      (t = [] ∨ ∀ a, ¬ meaning t a)

theorem fromUTF8?_eq_some_iff {text : String} :
    String.fromUTF8? ⟨value⟩ = some text ↔ text.toUTF8.data = value := by
  unfold String.fromUTF8?
  split
  · rw [Option.some.injEq]
    refine ⟨fun h => h ▸ rfl, ?_⟩
    rintro rfl
    rfl
  · next hinvalid =>
    refine ⟨nofun, ?_⟩
    rintro rfl
    exact absurd text.isValidUTF8 hinvalid

/-- Bytes are the UTF-8 of one text at most. -/
theorem means_toUTF8_iff {meaning : List Char → α → Prop} {text : String} {a : α} :
    Means meaning text.toUTF8.data a ↔ meaning (trim text.toList) a := by
  constructor
  · rintro ⟨text', t, htext, ht, ha⟩
    obtain rfl : text' = text := String.toByteArray_inj.mp (ByteArray.ext htext)
    exact trimsTo_iff.mp ht ▸ ha
  · exact fun ha => ⟨text, _, rfl, trimsTo_trim _, ha⟩

theorem text?_eq_some_iff {s : List Char} :
    text? value = some s ↔
      ∃ text : String, text.toUTF8.data = value ∧ text.toList = s ∧ trim s ≠ [] := by
  simp only [text?, Option.filter_eq_some_iff, Option.map_eq_some_iff, fromUTF8?_eq_some_iff]
  constructor
  · rintro ⟨⟨text, hvalue, hs⟩, hblank⟩
    exact ⟨text, hvalue, hs, by simpa using hblank⟩
  · rintro ⟨text, hvalue, hs, hblank⟩
    exact ⟨⟨text, hvalue, hs⟩, by simpa using hblank⟩

variable {read : List Char → Option α} {meaning : List Char → α → Prop}
  (hread : ∀ s a, read s = some a ↔ meaning (trim s) a) (hblank : ∀ a, ¬ meaning [] a)

include hread hblank

theorem bind_text?_eq_some_iff {a : α} :
    (text? value).bind read = some a ↔ Means meaning value a := by
  simp only [Option.bind_eq_some_iff, text?_eq_some_iff, hread, Means, trimsTo_iff]
  constructor
  · rintro ⟨_, ⟨text, hvalue, rfl, -⟩, ha⟩
    exact ⟨text, _, hvalue, rfl, ha⟩
  · rintro ⟨text, _, hvalue, rfl, ha⟩
    exact ⟨_, ⟨text, hvalue, rfl, fun h => hblank a (h ▸ ha)⟩, ha⟩

theorem bind_text?_eq_none_iff : (text? value).bind read = none ↔ Ignored meaning value := by
  rw [Option.eq_none_iff_forall_ne_some]
  simp only [ne_eq, bind_text?_eq_some_iff hread hblank]
  constructor
  · intro h
    by_cases htext : ∃ text : String, text.toUTF8.data = value
    · obtain ⟨text, rfl⟩ := htext
      exact .inr ⟨text, _, rfl, trimsTo_trim _, .inr fun a ha => h a (means_toUTF8_iff.mpr ha)⟩
    · exact .inl fun text hvalue => htext ⟨text, hvalue⟩
  · rintro (hinvalid | ⟨text, t, rfl, ht, hnone⟩) a ha
    · obtain ⟨text, -, hvalue, -⟩ := ha
      exact hinvalid text hvalue
    · rw [means_toUTF8_iff, trimsTo_iff.mp ht] at ha
      rcases hnone with rfl | hnone
      · exact hblank a ha
      · exact hnone a ha

theorem bind_text?_toUTF8 (text : String) :
    (text? text.toUTF8.data).bind read = read text.toList := by
  ext a
  rw [bind_text?_eq_some_iff hread hblank, means_toUTF8_iff, hread]

end Value

/-! ## What is asked for -/

/-- The value, if there is one, asks for the preference; the automatic one is also asked for by no
value and by one that is ignored. -/
def AsksFor (value : Option (Array UInt8)) (p : Preference) : Prop :=
  (∃ bytes, value = some bytes ∧ Means Preference.Spells bytes p) ∨
    p = .auto ∧ ∀ bytes, value = some bytes → Ignored Preference.Spells bytes

/-- The text writes the seed. -/
def Pins (t : List Char) (seed : UInt32) : Prop := Seed.Writes t seed.toNat

theorem not_spells_nil (p : Preference) : ¬ Preference.Spells [] p := by
  rintro ⟨w, hword, hcase⟩
  have hword_ne : ∀ w ∈ p.words, w.toList ≠ [] := by cases p <;> decide
  exact hword_ne w hword (List.forall₂_nil_left_iff.mp hcase)

theorem not_pins_nil (seed : UInt32) : ¬ Pins [] seed :=
  Seed.not_writes (.decimal [] nofun) (.inl nofun) _

theorem preference_eq_some_iff {bytes : Array UInt8} {p : Preference} :
    (text? bytes).bind Preference.ofText? = some p ↔ Means Preference.Spells bytes p :=
  bind_text?_eq_some_iff (fun _ _ => Preference.ofText?_eq_some_iff) not_spells_nil

theorem preference_eq_none_iff {bytes : Array UInt8} :
    (text? bytes).bind Preference.ofText? = none ↔ Ignored Preference.Spells bytes :=
  bind_text?_eq_none_iff (fun _ _ => Preference.ofText?_eq_some_iff) not_spells_nil

theorem requested_eq_iff {e : Environment} {p : Preference} :
    e.requested = p ↔ AsksFor e.preference p := by
  rw [requested, AsksFor]
  rcases e.preference with _ | bytes
  · simp [eq_comm]
  · rw [Option.bind_some]
    simp only [Option.some.injEq, forall_eq', exists_eq_left', ← preference_eq_some_iff,
      ← preference_eq_none_iff]
    cases (text? bytes).bind Preference.ofText? <;> simp [eq_comm]

theorem pinned_eq_some_iff {e : Environment} {seed : UInt32} :
    e.pinned = some seed ↔ ∃ bytes, e.seed = some bytes ∧ Means Pins bytes seed := by
  rw [pinned, Option.bind_assoc, Option.bind_eq_some_iff]
  simp only [bind_text?_eq_some_iff (fun _ _ => Seed.ofText?_eq_some_iff) not_pins_nil]

/-- A preference that is ignored counts as none. -/
theorem requested_of_ignored {bytes : Array UInt8} (h : Ignored Preference.Spells bytes)
    (seed : Option (Array UInt8)) :
    requested ⟨some bytes, seed⟩ = requested ⟨none, seed⟩ := by
  rw [requested, Option.bind_some, preference_eq_none_iff.mpr h]
  rfl

/-- A seed that is ignored counts as none. -/
theorem pinned_of_ignored {bytes : Array UInt8} (h : Ignored Pins bytes)
    (preference : Option (Array UInt8)) :
    pinned ⟨preference, some bytes⟩ = pinned ⟨preference, none⟩ := by
  rw [pinned, Option.bind_assoc, Option.bind_some,
    (bind_text?_eq_none_iff (fun _ _ => Seed.ofText?_eq_some_iff) not_pins_nil).mpr h]
  rfl

/-- Neither the blanks around a preference nor the case of its letters count. -/
theorem requested_eq_of_sameUpToCase {text text' : String} {t t' : List Char}
    (ht : TrimsTo text.toList t) (ht' : TrimsTo text'.toList t') (h : SameUpToCase t t')
    (seed seed' : Option (Array UInt8)) :
    requested ⟨some text.toUTF8.data, seed⟩ = requested ⟨some text'.toUTF8.data, seed'⟩ := by
  have hfold : Preference.fold text.toList = Preference.fold text'.toList := by
    rw [Preference.fold, Preference.fold, trimsTo_iff.mp ht, trimsTo_iff.mp ht']
    exact sameUpToCase_iff.mp h
  have hread : ∀ text : String, (text? text.toUTF8.data).bind Preference.ofText? =
      Preference.ofText? text.toList :=
    bind_text?_toUTF8 (fun _ _ => Preference.ofText?_eq_some_iff) not_spells_nil
  rw [requested, requested, Option.bind_some, Option.bind_some, hread, hread, Preference.ofText?,
    Preference.ofText?, hfold]

end Environment

/-! ## What comes of it -/

namespace Selection

open Environment

/-- **The environment is resolved safely.** A value that is no text, is blank or means nothing
counts as not set, whatever the other value is: the whole selection is the one without it. A
preference is asked for by its spellings alone, where neither blanks around the text nor the case of
ASCII letters count, and a seed by the texts that write it. What is in force is the instruction only
with SSE4.2; it is what was asked for, unless that is the instruction on a machine without SSE4.2,
which comes to the automatic choice. The hasher is banded just where the portable digest is not in
force and the machine has SSE4.2. -/
theorem environment_resolved (entropy : UInt32) (c : Capabilities) :
    (∀ value seed, Ignored Preference.Spells value →
      make ⟨some value, seed⟩ entropy (.same c) = make ⟨none, seed⟩ entropy (.same c)) ∧
    (∀ preference value, Ignored Pins value →
      make ⟨preference, some value⟩ entropy (.same c) =
        make ⟨preference, none⟩ entropy (.same c)) ∧
    (∀ (text text' : String) (t t' : List Char) (seed seed' : Option (Array UInt8)),
      TrimsTo text.toList t → TrimsTo text'.toList t' → SameUpToCase t t' →
      (make ⟨some text.toUTF8.data, seed⟩ entropy (.same c)).settings.requested =
        (make ⟨some text'.toUTF8.data, seed'⟩ entropy (.same c)).settings.requested) ∧
    (∀ t p, Preference.Spells t p → ∀ letter ∈ t, letter.toNat < 128) ∧
    ∀ e : Environment,
      let s := make e entropy (.same c)
      (∀ p, s.settings.requested = p ↔ AsksFor e.preference p) ∧
      (∀ seed, s.settings.seed = some seed ↔
        ∃ value, e.seed = some value ∧ Means Pins value seed) ∧
      (s.settings.effective = .instruction → c.has .sse42) ∧
      (s.settings.effective ≠ s.settings.requested ↔
        s.settings.requested = .instruction ∧ ¬ c.has .sse42) ∧
      (s.settings.effective ≠ s.settings.requested → s.settings.effective = .auto) ∧
      (s.hasher.banded ↔ s.settings.effective ≠ .portable ∧ c.has .sse42) := by
  simp only [make_same]
  refine ⟨fun value seed h => ?_, fun preference value h => ?_,
    fun text text' t t' seed seed' ht ht' h => ?_, fun t p => Preference.ascii_of_spells,
    fun e => ⟨fun p => requested_eq_iff, fun seed => pinned_eq_some_iff, ?_, ?_, ?_, ?_⟩⟩
  · have hpinned : pinned ⟨some value, seed⟩ = pinned ⟨none, seed⟩ := rfl
    rw [under, under, requested_of_ignored h, hpinned]
  · have hrequested : requested ⟨preference, some value⟩ = requested ⟨preference, none⟩ := rfl
    rw [under, under, pinned_of_ignored h, hrequested]
  · exact requested_eq_of_sameUpToCase ht ht' h seed seed'
  · exact Preference.hasInstruction_of_clamp
  · exact Preference.clamp_ne_self_iff
  · exact Preference.clamp_of_ne_self
  · exact (coherent_under e entropy c).banded.trans and_comm

/-- A preference that is no text, a seed of blanks, and the instruction asked for in two ways where
it is there and where it is not. -/
theorem environment_resolved_hwcrc :
    (Ignored Preference.Spells #[0xFF] ∧ ∀ seed,
      make ⟨some #[0xFF], seed⟩ 5 (.same .sse42) = make ⟨none, seed⟩ 5 (.same .sse42)) ∧
    (Ignored Pins #[0x20] ∧ ∀ preference,
      make ⟨preference, some #[0x20]⟩ 5 (.same .sse42) =
        make ⟨preference, none⟩ 5 (.same .sse42)) ∧
    (make ⟨some " HwCrc".toUTF8.data, none⟩ 5 (.same .none)).settings.requested =
      (make ⟨some "hwcrc".toUTF8.data, none⟩ 5 (.same .none)).settings.requested ∧
    (make ⟨some "hwcrc".toUTF8.data, none⟩ 5 (.same .sse42)).settings.effective = .instruction ∧
    Capabilities.sse42.has .sse42 ∧
    (make ⟨some "hwcrc".toUTF8.data, none⟩ 5 (.same .none)).settings.effective = .auto := by
  obtain ⟨hpreference, hseed, -, -, htrue⟩ := environment_resolved 5 .sse42
  obtain ⟨-, -, hcase, -, hfalse⟩ := environment_resolved 5 .none
  have hinvalid : Ignored Preference.Spells #[0xFF] :=
    preference_eq_none_iff.mp (by decide)
  have hblank : Ignored Pins #[0x20] :=
    .inr ⟨" ", [], by decide, trimsTo_iff.mpr (by decide), .inl rfl⟩
  have heffective :
      (make ⟨some "hwcrc".toUTF8.data, none⟩ 5 (.same .sse42)).settings.effective =
        .instruction := by decide
  refine ⟨⟨hinvalid, fun seed => hpreference _ seed hinvalid⟩,
    ⟨hblank, fun preference => hseed preference _ hblank⟩, ?_, heffective, ?_, ?_⟩
  · exact hcase _ _ ['H', 'w', 'C', 'r', 'c'] "hwcrc".toList none none (trimsTo_iff.mpr (by decide))
      (trimsTo_iff.mpr (by decide)) (sameUpToCase_iff.mpr (by decide))
  · exact (htrue _).2.2.1 heffective
  · exact (hfalse ⟨some "hwcrc".toUTF8.data, none⟩).2.2.2.2.1 (by decide)

/-- The Kelvin sign is a letter k to Unicode but not here. -/
example : Preference.ofText? ['F', 'a', 'l', 'l', 'b', 'a', 'c', 'K'] = some .portable ∧
    Preference.ofText? ['F', 'a', 'l', 'l', 'b', 'a', 'c', '\u212A'] = none := by decide

end Selection

end KeyDigest
