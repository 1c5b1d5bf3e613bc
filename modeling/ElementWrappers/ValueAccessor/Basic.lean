/-!
# Value accessors

A value accessor binds a form control to the elements that its selectors match:
on an event it reads an attribute of the event's target. Configurations of one
kind make one group.
-/

namespace ElementWrappers

inductive AccessorKind where
  | text
  | radio
  | select
  | number
  | boolean
  deriving DecidableEq, Repr

namespace AccessorKind

def name : AccessorKind → String
  | .text => "text"
  | .radio => "radio"
  | .select => "select"
  | .number => "number"
  | .boolean => "boolean"

def ofName? : String → Option AccessorKind
  | "text" => some .text
  | "radio" => some .radio
  | "select" => some .select
  | "number" => some .number
  | "boolean" => some .boolean
  | _ => none

end AccessorKind

/-- Element selectors, written as one text or as a list. -/
inductive Selectors where
  | one (selector : String)
  | many (selectors : List String)
  deriving DecidableEq, Repr

def Selectors.toList : Selectors → List String
  | .one s => [s]
  | .many ss => ss

/-- An event and the attribute that is read on it. -/
structure EventTarget where
  event : String
  attr : String
  deriving DecidableEq, Repr

structure AccessorConfig where
  selectors : Selectors
  event : String
  attr : String
  kind : AccessorKind
  deriving DecidableEq, Repr

def AccessorConfig.target (c : AccessorConfig) : EventTarget := ⟨c.event, c.attr⟩

/-- The configurations of one kind, taken together. -/
structure AccessorGroup where
  kind : AccessorKind
  selectors : List String
  targets : List EventTarget
  deriving DecidableEq, Repr

namespace AccessorGroup

/-- Adds an item that is not there yet. -/
def addNew {α : Type _} [BEq α] (items : List α) (item : α) : List α :=
  if items.contains item then items else items ++ [item]

def add (g : AccessorGroup) (c : AccessorConfig) : AccessorGroup :=
  ⟨g.kind, c.selectors.toList.foldl addNew g.selectors, addNew g.targets c.target⟩

/-- Adds a configuration to the group of its kind, or a group for it at the
end. -/
def addTo (groups : List AccessorGroup) (c : AccessorConfig) : List AccessorGroup :=
  match groups with
  | [] => [add ⟨c.kind, [], []⟩ c]
  | g :: rest => if g.kind = c.kind then g.add c :: rest else g :: addTo rest c

/-- The groups in the order in which their kinds first occur. -/
def ofConfigs (configs : List AccessorConfig) : List AccessorGroup := configs.foldl addTo []

end AccessorGroup

end ElementWrappers
