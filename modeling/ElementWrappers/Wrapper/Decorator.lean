import ElementWrappers.Naming
import ElementWrappers.Wrapper.Support

/-!
# The decorator call

What the decorator of a wrapper is told: the function that defines the element,
and the names of inputs and methods.
-/

namespace ElementWrappers

/-- The options of a decorator call. -/
structure Decorator where
  definer : Option String := none
  inputs : List String := []
  methods : List String := []
  deriving DecidableEq, Repr

namespace Decorator

def isEmpty (d : Decorator) : Bool := d.definer.isNone && d.inputs.isEmpty && d.methods.isEmpty

/-- A list option, left out where the list is empty. -/
def listOption (key : String) : List String → List String
  | [] => []
  | name :: rest => ["  " ++ key ++ ": [" ++ Naming.quotedList (name :: rest) ++ "]"]

def options (d : Decorator) : List String :=
  (match d.definer with
    | some name => ["  defineCustomElementFn: " ++ name]
    | none => []) ++
  listOption "inputs" d.inputs ++ listOption "methods" d.methods

def text (d : Decorator) : String :=
  match d.options with
  | [] => "@" ++ Support.decorator ++ "(\x7b\x7d)"
  | o :: rest =>
    "@" ++ Support.decorator ++ "(\x7b\n" ++ ",\n".intercalate (o :: rest) ++ "\n\x7d)"

theorem options_eq_nil_iff (d : Decorator) : d.options = [] ↔ d.isEmpty = true := by
  rcases d with ⟨_ | _, _ | _, _ | _⟩ <;> simp [options, isEmpty, listOption]

end Decorator

end ElementWrappers
