/-!
# One-line records

How values are written in structured reports: a record is a name with named fields in braces, a
list stands in square brackets, an option says whether there is a value, and a text stands in
double quotes.
-/

namespace KeyDigest.Text

/-- A text in double quotes. It holds no quote, backslash or control character itself. -/
def quoted (s : String) : String := "\"" ++ s ++ "\""

def listed (items : List String) : String := "[" ++ ", ".intercalate items ++ "]"

def optional : Option String → String
  | none => "None"
  | some s => "Some(" ++ s ++ ")"

def truth (b : Bool) : String := if b then "true" else "false"

/-- A record with at least one field. -/
def record (name : String) (fields : List (String × String)) : String :=
  name ++ " \x7b " ++ ", ".intercalate (fields.map fun f => f.1 ++ ": " ++ f.2) ++ " \x7d"

end KeyDigest.Text
