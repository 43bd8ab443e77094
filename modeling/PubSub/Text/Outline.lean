import PubSub.Text.Quoted

/-!
# Outlines of values

The two written forms of a value: `flat` on one line, and `tall` with one part a line, each part
followed by a comma and indented by four spaces more than its parent.
-/
namespace PubSub.Text

inductive Outline where
  | word (text : String)
  | quote (text : String)
  | list (items : List Outline)
  /-- A name with an unnamed part, such as `Key("a")`. -/
  | wrap (name : String) (part : Outline)
  /-- A name with named parts. An `unfinished` record says that it has parts that are not shown. -/
  | record (name : String) (fields : List (String × Outline)) (unfinished : Bool)

namespace Outline

mutual

def flat : Outline → String
  | .word text => text
  | .quote text => quoted text
  | .list items => "[" ++ ", ".intercalate (flatItems items) ++ "]"
  | .wrap name part => name ++ "(" ++ part.flat ++ ")"
  | .record name fields unfinished =>
    let shown := flatFields fields ++ if unfinished then [".."] else []
    name ++ " \x7b " ++ ", ".intercalate shown ++ " \x7d"

def flatItems : List Outline → List String
  | [] => []
  | item :: rest => item.flat :: flatItems rest

def flatFields : List (String × Outline) → List String
  | [] => []
  | (name, value) :: rest => (name ++ ": " ++ value.flat) :: flatFields rest

end

def margin (depth : Nat) : String := String.ofList (List.replicate (4 * depth) ' ')

/-- Puts each line one level below `depth` between an opening and a closing bracket. -/
def block (depth : Nat) (opening closing : String) (lines : List String) : String :=
  opening ++ "\n" ++ String.join (lines.map fun line => margin (depth + 1) ++ line ++ "\n")
    ++ margin depth ++ closing

mutual

/-- The tall form at an indentation of `depth` levels; the first line is not indented. -/
def tallAt (depth : Nat) : Outline → String
  | .word text => text
  | .quote text => quoted text
  | .list [] => "[]"
  | .list (item :: rest) => block depth "[" "]" (tallItems depth (item :: rest))
  | .wrap name part => block depth (name ++ "(") ")" [part.tallAt (depth + 1) ++ ","]
  | .record name fields unfinished =>
    block depth (name ++ " \x7b") "\x7d"
      (tallFields depth fields ++ if unfinished then [".."] else [])

def tallItems (depth : Nat) : List Outline → List String
  | [] => []
  | item :: rest => (item.tallAt (depth + 1) ++ ",") :: tallItems depth rest

def tallFields (depth : Nat) : List (String × Outline) → List String
  | [] => []
  | (name, value) :: rest =>
    (name ++ ": " ++ value.tallAt (depth + 1) ++ ",") :: tallFields depth rest

end

def tall (o : Outline) : String := o.tallAt 0

/-- The tall form if `pretty`, else the flat one. -/
def render (o : Outline) (pretty : Bool) : String := if pretty then o.tall else o.flat

end Outline

end PubSub.Text
