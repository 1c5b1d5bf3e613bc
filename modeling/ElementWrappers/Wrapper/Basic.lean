import ElementWrappers.Wrapper.ClassText

/-!
# Wrappers

The generated source of one component, ready to be placed in a file.
-/

namespace ElementWrappers

/-- How the wrappers of a pass are generated. -/
structure WrapperOptions where
  importsDefiner : Bool := false
  standalone : Bool := false
  inlineProperties : Bool := false
  /-- Whether every wrapper has a module of its own. -/
  withModule : Bool := false
  /-- Where the `Components` namespace and event types are imported from. -/
  typeModule : String := ""
  deriving DecidableEq, Repr

/-- The generated source of one component. -/
structure Wrapper where
  tag : String
  className : String
  definition : String
  moduleDefinition : Option String
  interfaceBlock : Option String
  typeImports : List TypeImport
  typeModule : String
  /-- The output properties, in the order of the events. -/
  outputNames : List String
  deriving DecidableEq, Repr

namespace Wrapper

/-- The class of a component's wrapper. -/
def classOf (c : Component) (options : WrapperOptions) : WrapperClass where
  tag := c.tag
  inputs := Input.ofComponent c
  methods := c.publicMethods.map Method.name
  importsDefiner := options.importsDefiner
  standalone := options.standalone
  setters := if options.inlineProperties then c.publicProperties else []
  events := c.events

def ofComponent (c : Component) (options : WrapperOptions) : Wrapper where
  tag := c.tag
  className := Naming.className c.tag
  definition := (classOf c options).text
  moduleDefinition := if options.withModule then some (Naming.moduleDefinition c.tag) else none
  interfaceBlock := interfaceBlock? (Naming.className c.tag) c.events
  typeImports := eventImports (Naming.className c.tag) c.events
  typeModule := options.typeModule
  outputNames := c.publicEvents.map fun e => Naming.camelCase e.name

def hasOutputs (w : Wrapper) : Bool := !w.outputNames.isEmpty

/-- The import statement of one type. -/
def importStatement (w : Wrapper) (i : TypeImport) : String :=
  "import type \x7b " ++ i.specifier ++ " \x7d from " ++ Naming.quoted w.typeModule ++ ";"

def importStatements (w : Wrapper) : List String := w.typeImports.map w.importStatement

/-- The interface after the imports that it needs. -/
def interfaceSection (w : Wrapper) (block : String) : String :=
  match w.importStatements with
  | [] => block
  | s :: rest => "\n".intercalate (s :: rest) ++ "\n\n" ++ block

/-- The wrapper as one section of a file that it shares with others. -/
def aggregateSection (w : Wrapper) : String :=
  "\n\n".intercalate
    (w.definition :: w.moduleDefinition.toList ++ (w.interfaceBlock.map w.interfaceSection).toList)

end Wrapper

end ElementWrappers
