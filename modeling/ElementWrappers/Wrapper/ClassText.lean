import ElementWrappers.Wrapper.Decorator
import ElementWrappers.Wrapper.Output

/-!
# The wrapper class

The decorated class of one wrapper: its component options, its members and its
constructor.
-/

namespace ElementWrappers

/-- What a wrapper class is made from. -/
structure WrapperClass where
  tag : String
  inputs : List Input
  methods : List String
  /-- Whether the decorator defines the element. -/
  importsDefiner : Bool
  standalone : Bool
  /-- Properties with a setter of their own. -/
  setters : List Property
  events : List Event

namespace WrapperClass

def className (w : WrapperClass) : String := Naming.className w.tag

def outputs (w : WrapperClass) : List Output := Output.ofEvents w.className w.events

def decorator (w : WrapperClass) : Decorator :=
  ⟨if w.importsDefiner then some ("define" ++ w.className) else none,
   w.inputs.map Input.name, w.methods⟩

/-- The options of `@Component`. -/
def componentOptions (w : WrapperClass) : List String :=
  ["  selector: " ++ Naming.quoted w.tag,
    "  changeDetection: ChangeDetectionStrategy.OnPush",
    "  template: '<ng-content></ng-content>'",
    "  // eslint-disable-next-line @angular-eslint/no-inputs-metadata-property\n  inputs: [" ++
      ", ".intercalate (w.inputs.map Input.text) ++ "]"] ++
  (match w.outputs with
    | [] => []
    | o :: rest => ["  outputs: [" ++ Naming.quotedList ((o :: rest).map Output.property) ++ "]"]) ++
  ["  standalone: " ++ if w.standalone then "true" else "false"]

/-- A setter that only has a type. -/
def setterText (w : WrapperClass) (p : Property) : String :=
  p.docs.onTop "  " ("  set " ++ Naming.member p.name ++ "(_: Components." ++ w.className ++
    "['" ++ p.name ++ "']) \x7b\x7d;")

def outputText (o : Output) : String :=
  "  @Output() " ++ Naming.member o.property ++ " = new " ++ o.emitterType ++ "();"

def members (w : WrapperClass) : List String :=
  ("  protected el: HTML" ++ w.className ++ "Element;") ::
    w.setters.map w.setterText ++ w.outputs.map outputText

def constructorLines (w : WrapperClass) : List String :=
  ["  constructor(c: ChangeDetectorRef, r: ElementRef, protected z: NgZone) \x7b",
    "    c.detach();",
    "    this.el = r.nativeElement;"] ++
  (match w.outputs with
    | [] => []
    | o :: rest =>
      ["    " ++ Support.outputBinder ++ "(this, this.el, [" ++
        Naming.quotedList ((o :: rest).map fun o => o.event.name) ++ "]);"]) ++
  ["  \x7d"]

def text (w : WrapperClass) : String :=
  w.decorator.text ++ "\n@Component(\x7b\n" ++ ",\n".intercalate w.componentOptions ++
    "\n\x7d)\nexport class " ++ w.className ++ " \x7b\n" ++ "\n".intercalate w.members ++ "\n" ++
    "\n".intercalate w.constructorLines ++ "\n\x7d"

end WrapperClass

end ElementWrappers
