import ElementWrappers.Component.Basic
import ElementWrappers.Text.Blank

/-!
# Doc comments

The lines of a documentation, its tags at the end of the last one, and the
comment block around them.
-/

namespace ElementWrappers

/-- A tag as it is written. -/
def DocTag.written (t : DocTag) : String :=
  match t.text with
  | none => "@" ++ t.name
  | some text => if text = "" then "@" ++ t.name else "@" ++ t.name ++ " " ++ text

namespace Doc

/-- Whether there is nothing to write. -/
def isBlank (d : Doc) : Bool := (Text.trim d.text.toList).isEmpty && d.tags.isEmpty

/-- Adds words to the last line, or makes them the only one. -/
def appendToLast (words : String) : List String → List String
  | [] => [words]
  | [line] => [line ++ " " ++ words]
  | line :: rest => line :: appendToLast words rest

def lines (d : Doc) : List String :=
  let written := (Text.lines d.text.toList).map String.ofList
  let tags := " ".intercalate (d.tags.map DocTag.written)
  if tags = "" then written else appendToLast tags written

/-- A line inside the comment block. -/
def commentLine (indent line : String) : String :=
  if line = "" then indent ++ " *" else indent ++ " * " ++ line

/-- The comment block, if there is anything to write. -/
def comment? (d : Doc) (indent : String) : Option String :=
  if d.isBlank then none
  else
    some ("\n".intercalate
      ((indent ++ "/**") :: d.lines.map (commentLine indent) ++ [indent ++ " */"]))

/-- A declaration under its doc comment. -/
def onTop (d : Doc) (indent declaration : String) : String :=
  match d.comment? indent with
  | some comment => comment ++ "\n" ++ declaration
  | none => declaration

end Doc

end ElementWrappers
