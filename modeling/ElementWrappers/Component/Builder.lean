import ElementWrappers.Component.Basic

/-!
# Building metadata

Component metadata put together one item at a time.
-/

namespace ElementWrappers.Component

def withProperty (c : Component) (p : Property) : Component :=
  { c with properties := c.properties ++ [p] }

def withVirtualProperty (c : Component) (name : String) : Component :=
  { c with virtualProperties := c.virtualProperties ++ [{ name }] }

def withMethod (c : Component) (m : Method) : Component := { c with methods := c.methods ++ [m] }

def withEvent (c : Component) (e : Event) : Component := { c with events := c.events ++ [e] }

end ElementWrappers.Component

namespace ElementWrappers

/-- A payload type that is resolved as it is written. -/
def PayloadType.plain (written : String) (references : Entries TypeOrigin) : PayloadType :=
  ⟨written, written, .ofList (references.map fun r => (r.1, { origin := r.2 }))⟩

end ElementWrappers
