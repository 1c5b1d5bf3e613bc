import ElementWrappers.Component.Basic
import ElementWrappers.Text.Numeric
import ElementWrappers.Text.Word

/-!
# Names in type expressions

Which words are names, which of them are in scope everywhere, and what the
others are called next to a wrapper: `I`, the class name, and the name.
-/

namespace ElementWrappers.TypeExpr

/-- Types that are in scope everywhere. -/
def builtIns : List String :=
  ["void", "any", "unknown", "never", "null", "undefined", "object", "string", "number",
    "boolean", "bigint", "symbol", "true", "false", "Array", "ReadonlyArray", "Record",
    "Partial", "Required", "Readonly", "Pick", "Omit", "Promise", "Map", "Set", "Date",
    "Error", "Event", "UIEvent", "CustomEvent", "KeyboardEvent", "MouseEvent", "FocusEvent",
    "InputEvent", "PointerEvent", "TouchEvent", "WheelEvent", "DragEvent", "ClipboardEvent",
    "AnimationEvent", "TransitionEvent", "Element", "HTMLElement", "Node", "File", "Blob"]

def isBuiltIn (name : String) : Bool := builtIns.contains name

/-- Whether `c` may begin a name. -/
def isNameStart (c : Char) : Bool := c.isAlpha || c == '_' || c == '$'

/-- Whether `c` may continue a name. -/
def isNamePart (c : Char) : Bool := Text.isWordChar c || c == '$'

def isName : List Char → Bool
  | [] => false
  | c :: rest => isNameStart c && rest.all isNamePart

/-- Whether a word goes on through `c`. -/
def isIdentifierChar (c : Char) : Bool := Text.isAlphanumeric c || c == '_' || c == '$'

/-- The names that a component's event types may use. -/
structure Scope where
  className : String
  references : References

namespace Scope

/-- What every local name begins with. -/
def stem (s : Scope) : List Char := 'I' :: s.className.toList

/-- What a type is called next to the wrapper. -/
def localName (s : Scope) (name : List Char) : List Char :=
  if s.stem.isPrefixOf name then name else s.stem ++ name

/-- Whether a name keeps its meaning next to the wrapper. -/
def isGlobal (s : Scope) (name : List Char) : Bool :=
  isBuiltIn (String.ofList name) ||
    match s.references.get? (String.ofList name) with
    | some r => !r.needsImport
    | none => false

/-- The name by which a leading name of a type is written next to the wrapper. -/
def qualifyName (s : Scope) (name : List Char) : List Char :=
  if s.isGlobal name then name else s.localName name

/-- The referenced names that have to be imported. -/
def importedNames (s : Scope) : List String :=
  (s.references.entries.filter fun entry => entry.2.needsImport).map Prod.fst

end Scope

end ElementWrappers.TypeExpr
