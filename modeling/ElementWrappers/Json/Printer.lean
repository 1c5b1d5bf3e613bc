import ElementWrappers.Json.Basic

/-!
# Printing JSON

One printer for two layouts: everything on one line, or one item a line with
two spaces for each level. Empty arrays and objects are always written in one.
-/

namespace ElementWrappers.Json

/-- A lower-case hexadecimal digit. -/
def hexDigit (n : Nat) : Char := if n < 10 then Char.ofNat (n + 48) else Char.ofNat (n + 87)

/-- How a character is written inside a string. -/
def escapeChar (c : Char) : List Char :=
  if c = '"' then ['\\', '"']
  else if c = '\\' then ['\\', '\\']
  else if 32 ≤ c.toNat then [c]
  else if c = '\n' then ['\\', 'n']
  else if c = '\r' then ['\\', 'r']
  else if c = '\t' then ['\\', 't']
  else if c = '\x08' then ['\\', 'b']
  else if c = '\x0c' then ['\\', 'f']
  else ['\\', 'u', '0', '0', hexDigit (c.toNat / 16), hexDigit (c.toNat % 16)]

/-- A string with its quotes. -/
def printString (text : String) : List Char := '"' :: text.toList.flatMap escapeChar ++ ['"']

/-- What is written between the items of a level, and after a key. -/
structure Layout where
  lineBreak : Nat → List Char
  colon : List Char

def Layout.compact : Layout := ⟨fun _ => [], [':']⟩

def Layout.indented : Layout := ⟨fun level => '\n' :: List.replicate (2 * level) ' ', [':', ' ']⟩

mutual

/-- The text of a value that stands at `level`. -/
def print (layout : Layout) (level : Nat) : Json → List Char
  | .null => ['n', 'u', 'l', 'l']
  | .bool true => ['t', 'r', 'u', 'e']
  | .bool false => ['f', 'a', 'l', 's', 'e']
  | .int n => (toString n).toList
  | .double x => x.text
  | .str text => printString text
  | .arr [] => ['[', ']']
  | .arr (v :: rest) =>
    '[' :: layout.lineBreak (level + 1) ++ print layout (level + 1) v ++
      printItems layout (level + 1) rest ++ layout.lineBreak level ++ [']']
  | .obj [] => ['{', '}']
  | .obj ((key, v) :: rest) =>
    '{' :: layout.lineBreak (level + 1) ++ printString key ++ layout.colon ++
      print layout (level + 1) v ++ printMembers layout (level + 1) rest ++
      layout.lineBreak level ++ ['}']

/-- The items after the first, each after a comma. -/
def printItems (layout : Layout) (level : Nat) : List Json → List Char
  | [] => []
  | v :: rest =>
    ',' :: layout.lineBreak level ++ print layout level v ++ printItems layout level rest

/-- The members after the first, each after a comma. -/
def printMembers (layout : Layout) (level : Nat) : List (String × Json) → List Char
  | [] => []
  | (key, v) :: rest =>
    ',' :: layout.lineBreak level ++ printString key ++ layout.colon ++ print layout level v ++
      printMembers layout level rest

end

/-- The text of a value on one line. -/
def compact (v : Json) : String := String.ofList (print .compact 0 v)

/-- The text of a value with one item a line. -/
def pretty (v : Json) : String := String.ofList (print .indented 0 v)

end ElementWrappers.Json
