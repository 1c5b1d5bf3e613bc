import ElementWrappers.Json.Basic

/-!
# Values of a known shape

A decoder gives nothing where a value has another shape; strings, numbers and
truth values are never converted into each other. A record is an object, or an
array of its fields in the order they are declared in.
-/

namespace ElementWrappers.Json

def bool? : Json → Option Bool
  | .bool b => some b
  | _ => none

def string? : Json → Option String
  | .str text => some text
  | _ => none

def members? : Json → Option Members
  | .obj members => some members
  | _ => none

/-- `decode` applied to every item of a list, if it always gives a value. -/
def decodeAll {α : Type _} (decode : Json → Option α) : List Json → Option (List α)
  | [] => some []
  | v :: rest =>
    match decode v, decodeAll decode rest with
    | some a, some as => some (a :: as)
    | _, _ => none

def list? {α : Type _} (decode : Json → Option α) : Json → Option (List α)
  | .arr items => decodeAll decode items
  | _ => none

/-- `null` is no value. -/
def optional? {α : Type _} (decode : Json → Option α) : Json → Option (Option α)
  | .null => some none
  | v => (decode v).map some

/-- `decode` applied to the value of every member, if it always gives a value. -/
def decodeMembers {α : Type _} (decode : Json → Option α) : Members → Option (Entries α)
  | [] => some []
  | (key, v) :: rest =>
    match decode v, decodeMembers decode rest with
    | some a, some as => some ((key, a) :: as)
    | _, _ => none

/-- An object with values of one kind. -/
def table? {α : Type _} (decode : Json → Option α) : Json → Option (Table α)
  | .obj members => (decodeMembers decode members).map Table.ofList
  | _ => none

/-- The name of an alternative: a string, or an object with that one key and no
value. -/
def alternative? : Json → Option String
  | .str name => some name
  | .obj [(name, .null)] => some name
  | _ => none

/-! ## Records -/

/-- The fields found in a record. -/
abbrev Fields := String → Option Json

/-- The value at the place of `name` in `names`. -/
def positional : List String → List Json → Fields
  | n :: names, v :: values, name => if n = name then some v else positional names values name
  | _, _, _ => none

/-- Whether none of `names` is a key twice. -/
def unrepeated (names : List String) (members : Members) : Bool :=
  names.all fun name => (members.keys.filter (· == name)).length ≤ 1

/-- The fields of a record with the declared `names`. Other members of an object
do not matter; an array with more items than names is no record. -/
def record? (names : List String) : Json → Option Fields
  | .obj members => if unrepeated names members then some (Entries.get? members) else none
  | .arr values => if values.length ≤ names.length then some (positional names values) else none
  | _ => none

/-- A field that may be missing. -/
def Fields.getD {α : Type _} (fields : Fields) (name : String) (default : α)
    (decode : Json → Option α) : Option α :=
  match fields name with
  | none => some default
  | some v => decode v

/-- A field that has to be there. -/
def Fields.get {α : Type _} (fields : Fields) (name : String) (decode : Json → Option α) :
    Option α :=
  match fields name with
  | none => none
  | some v => decode v

end ElementWrappers.Json
