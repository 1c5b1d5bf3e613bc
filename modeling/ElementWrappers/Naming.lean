import ElementWrappers.Text.Uppercase

/-!
# Names

Identifiers derived from tag names and event names, and the way names are
written in generated TypeScript.
-/

namespace ElementWrappers.Naming

/-- The first character in upper case, the others as they are. -/
def capitalize : List Char → List Char
  | [] => []
  | c :: cs => Text.uppercase c ++ cs

/-- The class name of a tag: its dash-separated parts, each capitalized. -/
def className (tag : String) : String :=
  String.ofList ((tag.toList.splitOn '-').flatMap capitalize)

/-- A dash before a small ASCII letter capitalizes it and disappears. -/
def camelChars : List Char → List Char
  | '-' :: c :: cs => if c.isLower then c.toUpper :: camelChars cs else '-' :: camelChars (c :: cs)
  | c :: cs => c :: camelChars cs
  | [] => []

/-- The property name of an event. -/
def camelCase (name : String) : String := String.ofList (camelChars name.toList)

/-- Names with a dash or a slash are written as quoted property names. -/
def needsQuotes (name : String) : Bool := name.toList.any fun c => c == '-' || c == '/'

/-- `name` between single quotes. -/
def quoted (name : String) : String := "'" ++ name ++ "'"

/-- `name` as a property name. -/
def member (name : String) : String := if needsQuotes name then quoted name else name

/-- Single-quoted names, separated by commas. -/
def quotedList (names : List String) : String := ", ".intercalate (names.map quoted)

/-- A named import from a module, empty when nothing is imported. -/
def namedImport (names : List String) (source : String) : String :=
  match names with
  | [] => ""
  | _ :: _ =>
    "import \x7b " ++ ", ".intercalate names ++ " \x7d from " ++ quoted source ++ ";"

/-- The `NgModule` that declares and exports the wrapper of one tag. -/
def moduleDefinition (tag : String) : String :=
  let name := className tag
  "@NgModule(\x7b\n  declarations: [" ++ name ++ "],\n  exports: [" ++ name ++
    "]\n\x7d)\nexport class " ++ name ++ "Module \x7b \x7d"

end ElementWrappers.Naming
