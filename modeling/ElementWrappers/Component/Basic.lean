import ElementWrappers.Entries

/-!
# Component metadata

What the build of a custom element says about it: its tag, properties, methods
and events. Internal items have no place on a wrapper.
-/

namespace ElementWrappers

/-- A documentation tag, written `@name text`. -/
structure DocTag where
  name : String := ""
  text : Option String := none
  deriving DecidableEq, Repr

/-- The documentation of a member. -/
structure Doc where
  text : String := ""
  tags : List DocTag := []
  deriving DecidableEq, Repr

structure Property where
  name : String := ""
  required : Bool := false
  isInternal : Bool := false
  docs : Doc := {}
  deriving DecidableEq, Repr

/-- A property that only the wrapper has. -/
structure VirtualProperty where
  name : String := ""
  docs : String := ""
  deriving DecidableEq, Repr

structure Method where
  name : String := ""
  isInternal : Bool := false
  docs : Doc := {}
  deriving DecidableEq, Repr

/-- Where a type that an event refers to is declared. -/
inductive TypeOrigin where
  /-- In the module of the component. -/
  | sameModule
  | imported
  /-- Everywhere. -/
  | ambient
  | unknown
  deriving DecidableEq, Repr

structure TypeReference where
  origin : TypeOrigin
  path : Option String := none
  id : Option String := none
  deriving DecidableEq, Repr

/-- Whether a wrapper that uses the type has to import it. -/
def TypeReference.needsImport (r : TypeReference) : Bool :=
  match r.origin with
  | .sameModule | .imported => true
  | .ambient | .unknown => false

/-- Type names used by an event, each with its origin. -/
abbrev References := Table TypeReference

/-- The payload type of an event, as written and as resolved by the compiler. -/
structure PayloadType where
  written : String := ""
  resolved : String := ""
  references : References := .empty

structure Event where
  name : String := ""
  isInternal : Bool := false
  payload : PayloadType := {}
  docs : Doc := {}

/-- The metadata of one custom element. -/
structure Component where
  tag : String := ""
  isInternal : Bool := false
  properties : List Property := []
  virtualProperties : List VirtualProperty := []
  methods : List Method := []
  events : List Event := []

namespace Component

def publicProperties (c : Component) : List Property := c.properties.filter fun p => !p.isInternal

def publicMethods (c : Component) : List Method := c.methods.filter fun m => !m.isInternal

def publicEvents (c : Component) : List Event := c.events.filter fun e => !e.isInternal

end Component

end ElementWrappers
