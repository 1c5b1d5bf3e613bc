import ElementWrappers.Component.Basic

/-!
# Selection

The components of a pass, in the order of their tags: those that are neither
internal nor excluded, and of each tag the first.
-/

namespace ElementWrappers

/-- The tags that are defined already. -/
structure Registry where
  tags : List String := []

namespace Registry

def isDefined (r : Registry) (tag : String) : Bool := r.tags.contains tag

/-- Defines a tag that is not defined yet. -/
def define (r : Registry) (tag : String) : Registry :=
  if r.isDefined tag then r else ⟨r.tags ++ [tag]⟩

def size (r : Registry) : Nat := r.tags.length

end Registry

namespace Component

/-- Whether a component gets a wrapper. -/
def isWanted (excluded : List String) (c : Component) : Bool :=
  !c.isInternal && !excluded.contains c.tag

/-- In the order of tags; components with one tag keep their order. -/
def sortByTag (components : List Component) : List Component :=
  components.mergeSort fun a b => decide (a.tag ≤ b.tag)

/-- The components whose tags are not defined yet, each tag once. -/
def firstOfEachTag (defined : Registry) : List Component → List Component
  | [] => []
  | c :: rest =>
    if defined.isDefined c.tag then firstOfEachTag defined rest
    else c :: firstOfEachTag (defined.define c.tag) rest

/-- The components that get a wrapper. -/
def select (excluded : List String) (components : List Component) : List Component :=
  firstOfEachTag {} ((sortByTag components).filter (isWanted excluded))

end Component

end ElementWrappers
