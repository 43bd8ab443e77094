import PubSub.Text.Quoted

/-!
# Documents

Nested values, and their compact text: no blank stands between two parts, and the fields of a
record come in the order of their names.
-/
namespace PubSub.Text

inductive Document where
  | null
  | flag (value : Bool)
  | number (value : Nat)
  | text (value : String)
  | items (values : List Document)
  | fields (values : List (String × Document))

namespace Document

/-- Only the quote, the backslash and control characters below the space are escaped. -/
def escape (c : Char) : String :=
  match c with
  | '"' => "\\\""
  | '\\' => "\\\\"
  | '\x08' => "\\b"
  | '\x0c' => "\\f"
  | '\n' => "\\n"
  | '\r' => "\\r"
  | '\t' => "\\t"
  | c =>
    if c.toNat < 16 then "\\u000" ++ hexDigits c.toNat
    else if c.toNat < 32 then "\\u00" ++ hexDigits c.toNat
    else c.toString

def quoted (s : String) : String := "\"" ++ String.join (s.toList.map escape) ++ "\""

mutual

def compact : Document → String
  | .null => "null"
  | .flag value => toString value
  | .number value => toString value
  | .text value => quoted value
  | .items values => "[" ++ ",".intercalate (compactItems values) ++ "]"
  | .fields values =>
    let sorted := (compactFields values).mergeSort fun a b => decide (a.1 ≤ b.1)
    "\x7b" ++ ",".intercalate (sorted.map fun field => quoted field.1 ++ ":" ++ field.2) ++ "\x7d"

def compactItems : List Document → List String
  | [] => []
  | value :: rest => value.compact :: compactItems rest

def compactFields : List (String × Document) → List (String × String)
  | [] => []
  | (name, value) :: rest => (name, value.compact) :: compactFields rest

end

/-- The text by which a document is ordered among others: a text stands for itself. -/
def sortText : Document → String
  | .text value => value
  | value => value.compact

end Document

end PubSub.Text
