import ElementWrappers.Component.DocComment
import ElementWrappers.Naming
import ElementWrappers.TypeExpr.Resolve

/-!
# Inputs and outputs

The inputs and outputs of a wrapper, and the interface that gives its outputs
their types.
-/

namespace ElementWrappers

/-- An input of a wrapper. -/
structure Input where
  name : String
  required : Bool
  deriving DecidableEq, Repr

namespace Input

/-- A required input is listed as an object. -/
def text (i : Input) : String :=
  if i.required then "\x7b name: " ++ Naming.quoted i.name ++ ", required: true \x7d"
  else Naming.quoted i.name

/-- The public properties and the virtual ones, in the order of their names. -/
def ofComponent (c : Component) : List Input :=
  let own := c.publicProperties.map fun p => Input.mk p.name p.required
  let virtual := c.virtualProperties.map fun p => Input.mk p.name false
  (own ++ virtual).mergeSort fun a b => decide (a.name ≤ b.name)

end Input

/-- An event as it appears on a wrapper. -/
structure Output where
  event : Event
  property : String
  type : String

namespace Output

/-- The outputs of the wrapper `className`, one for each public event. -/
def ofEvents (className : String) (events : List Event) : List Output :=
  (events.filter fun e => !e.isInternal).map fun e =>
    ⟨e, Naming.camelCase e.name, (e.resolvedType className).text⟩

/-- The type of an output. -/
def emitterType (o : Output) : String := "EventEmitter<CustomEvent<" ++ o.type ++ ">>"

end Output

/-- The types that public events need, each once. -/
def eventImports (className : String) (events : List Event) : List TypeImport :=
  ((events.filter fun e => !e.isInternal).flatMap fun e => (e.resolvedType className).imports).foldl
    (fun imports i => if imports.contains i then imports else imports ++ [i]) []

/-! ## The interface -/

/-- A member of the interface, with its doc comment if it has one. -/
structure InterfaceMember where
  text : String
  documented : Bool
  deriving DecidableEq, Repr

namespace InterfaceMember

/-- A blank line goes before a member without documentation. -/
def gap (m : InterfaceMember) : String := if m.documented then "\n" else "\n\n"

def joinAll : List InterfaceMember → String
  | [] => ""
  | m :: rest => m.text ++ String.join (rest.map fun m => m.gap ++ m.text)

def ofOutput (o : Output) : InterfaceMember :=
  ⟨o.event.docs.onTop "  " ("  " ++ Naming.member o.property ++ ": " ++ o.emitterType ++ ";"),
   (o.event.docs.comment? "  ").isSome⟩

end InterfaceMember

/-- The interface that is merged with the class, if there are public events. -/
def interfaceBlock? (className : String) (events : List Event) : Option String :=
  match Output.ofEvents className events with
  | [] => none
  | o :: rest =>
    some ("export declare interface " ++ className ++ " extends Components." ++ className ++
      " \x7b\n" ++ InterfaceMember.joinAll ((o :: rest).map InterfaceMember.ofOutput) ++ "\n\x7d")

end ElementWrappers
