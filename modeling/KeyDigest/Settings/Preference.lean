import KeyDigest.Text.Blank

/-!
# The preferred digest

A user may ask for the portable digest, or for the processor's instruction. The spellings are
compared without regard to ASCII case and to blanks around them.
-/

namespace KeyDigest

/-- Which digest is asked for. -/
inductive Preference where
  /-- The instruction where there is one, the portable digest elsewhere. -/
  | auto
  /-- The portable digest everywhere. -/
  | portable
  /-- The instruction, if there is one. -/
  | instruction
  deriving DecidableEq

namespace Preference

/-- The label in one-line reports, which is also the first spelling. -/
def label : Preference → String
  | auto => "auto"
  | portable => "portable"
  | instruction => "hwcrc"

/-- The name in structured reports. -/
def name : Preference → String
  | auto => "Auto"
  | portable => "Portable"
  | instruction => "Hwcrc"

/-- The accepted spellings. -/
def spellings : List (String × Preference) :=
  [("auto", auto), ("portable", portable), ("fallback", portable), ("lookup3", portable),
    ("hwcrc", instruction), ("crc", instruction), ("crc32c", instruction)]

/-- The text without blanks around it, its ASCII letters in lower case. -/
def fold (s : List Char) : List Char := (Text.trim s).map Char.toLower

/-- The preference that a text spells. -/
def ofText? (s : List Char) : Option Preference :=
  (spellings.find? fun p => fold s == p.1.toList).map Prod.snd

/-- What a preference comes to on a machine with or without the instruction. -/
def clamp (p : Preference) (hasInstruction : Bool) : Preference :=
  match p with
  | instruction => if hasInstruction then instruction else auto
  | p => p

end Preference

end KeyDigest
