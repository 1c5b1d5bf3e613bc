import ElementWrappers.Entries
import ElementWrappers.Json.Double

/-!
# JSON values

Objects keep the order of their members. `distinct` settles repeated keys.
-/

namespace ElementWrappers

/-- JSON values. -/
inductive Json where
  | null
  | bool (value : Bool)
  | int (value : Int)
  | double (value : Double)
  | str (text : String)
  | arr (items : List Json)
  | obj (members : List (String × Json))

namespace Json

instance : Inhabited Json := ⟨.null⟩

/-- Why a text gives no value of the kind asked for. -/
inductive Fault where
  /-- The text ends inside a value. -/
  | unfinished
  | malformed
  /-- A value of another shape. -/
  | misshapen
  deriving DecidableEq, Repr

/-- The members of an object. -/
abbrev Members := Entries Json

mutual

/-- The value in which each repeated key keeps its first place and its last
value. -/
def distinct : Json → Json
  | .arr items => .arr (distinctItems items)
  | .obj members => .obj (distinctMembers members).merged
  | .null => .null
  | .bool b => .bool b
  | .int n => .int n
  | .double x => .double x
  | .str s => .str s

def distinctItems : List Json → List Json
  | [] => []
  | v :: rest => distinct v :: distinctItems rest

def distinctMembers : List (String × Json) → Members
  | [] => []
  | (key, v) :: rest => (key, distinct v) :: distinctMembers rest

end

end Json

end ElementWrappers
