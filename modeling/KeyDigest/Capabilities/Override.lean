import KeyDigest.Threads
import KeyDigest.Capabilities.Basic

/-!
# The override

A process can replace the capabilities that were detected by a word of its own choice. The
override is kept in two shared cells, a word and a flag that says whether the word counts. Setting
stores the word and then raises the flag, clearing lowers the flag, and getting looks at the flag
before it reads the word.
-/

namespace KeyDigest.Override

structure Cells where
  raised : Bool := false
  word : Capabilities := .none
  deriving DecidableEq

/-- The word that counts, if any. -/
def Cells.current (s : Cells) : Option Capabilities := if s.raised then some s.word else none

inductive Call where
  | set (c : Capabilities)
  | clear
  | get
  deriving DecidableEq

inductive Access where
  | storeWord (c : Capabilities)
  | raise
  | lower
  | loadFlag
  | loadWord
  deriving DecidableEq

inductive Outcome where
  | stored
  | got (word : Option Capabilities)
  deriving DecidableEq

def Access.perform : Access → Cells → Cells × Next Access Outcome
  | storeWord c, s => ({ s with word := c }, .access raise)
  | raise, s => ({ s with raised := true }, .finish .stored)
  | lower, s => ({ s with raised := false }, .finish .stored)
  | loadFlag, s => (s, if s.raised then .access loadWord else .finish (.got none))
  | loadWord, s => (s, .finish (.got (some s.word)))

def protocol : Protocol Cells Call Access Outcome where
  first
    | .set c => .storeWord c
    | .clear => .lower
    | .get => .loadFlag
  perform := Access.perform
  following
    | .storeWord _ => 1
    | .loadFlag => 1
    | _ => 0
  following_lt := by
    intro a b s t h
    cases a <;> grind [Access.perform]

/-! ## Calls without interruption -/

def Call.make (call : Call) (s : Cells) : Cells := (protocol.alone call s).1

theorem alone_set (c : Capabilities) (s : Cells) :
    protocol.alone (.set c) s = (⟨true, c⟩, some .stored) :=
  (Protocol.complete_of_access rfl).trans (Protocol.complete_of_finish rfl)

theorem alone_clear (s : Cells) :
    protocol.alone .clear s = ({ s with raised := false }, some .stored) :=
  Protocol.complete_of_finish rfl

theorem alone_get (s : Cells) : protocol.alone .get s = (s, some (.got s.current)) := by
  cases h : s.raised
  · exact Protocol.complete_of_finish
      (by simp [protocol, Access.perform, Cells.current, h])
  · refine (Protocol.complete_of_access (b := .loadWord) (t := s) ?_).trans
      (Protocol.complete_of_finish ?_)
    · simp [protocol, Access.perform, h]
    · simp [protocol, Access.perform, Cells.current, h]

@[simp] theorem make_set (c : Capabilities) (s : Cells) : (Call.set c).make s = ⟨true, c⟩ := by
  simp [Call.make, alone_set]

@[simp] theorem make_clear (s : Cells) : Call.clear.make s = { s with raised := false } := by
  simp [Call.make, alone_clear]

@[simp] theorem make_get (s : Cells) : Call.get.make s = s := by
  simp [Call.make, alone_get]

end KeyDigest.Override
