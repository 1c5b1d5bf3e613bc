import ElementWrappers.Json.Basic
import ElementWrappers.Path
import ElementWrappers.ValueAccessor.Basic

/-!
# Targets

The options of one output target, the places that they name, and the part of a
build configuration that is read.
-/

namespace ElementWrappers

/-- The kind of Angular code that is asked for. -/
inductive OutputType where
  /-- All wrappers in one file, for components that load lazily. -/
  | component
  /-- A module beside each wrapper. -/
  | scam
  /-- Wrappers that need no module. -/
  | standalone
  deriving DecidableEq, Repr

namespace OutputType

def name : OutputType → String
  | .component => "component"
  | .scam => "scam"
  | .standalone => "standalone"

def ofName? : String → Option OutputType
  | "component" => some .component
  | "scam" => some .scam
  | "standalone" => some .standalone
  | _ => none

end OutputType

/-- The options of an output target. -/
structure Target where
  /-- The package that the generated code imports the components from. -/
  corePackage : Option String := none
  proxyFile : String
  /-- The file of the `DIRECTIVES` array, if there is one. -/
  arrayFile : Option String := none
  outputType : OutputType := .component
  /-- The directory of the element definers inside the core package. -/
  customElementsDir : String := "components"
  excluded : List String := []
  inlineProperties : Bool := false
  /-- One file and one export map entry for each component. -/
  individualExport : Bool := false
  componentDir : Option String := none
  accessors : List AccessorConfig := []
  /-- The subpath of the components in the export map. -/
  exportSubpath : String := "components"
  /-- The package manifest that holds the export map. -/
  libraryManifest : Option String := none
  deriving DecidableEq, Repr

/-- The places that a target names, in normal form. -/
structure TargetPaths where
  proxyFile : String
  proxyDir : String
  arrayFile : Option String
  componentDir : String
  libraryManifest : String
  deriving DecidableEq, Repr

/-- The places of a target as seen from the root of the build. -/
def Target.paths (t : Target) (rootDir : String) : TargetPaths :=
  let proxyFile := Path.resolve rootDir t.proxyFile
  let proxyDir := Path.directory proxyFile
  { proxyFile
    proxyDir
    arrayFile := t.arrayFile.map (Path.resolve rootDir)
    componentDir :=
      match t.componentDir with
      | some dir => Path.resolve rootDir dir
      | none => Path.join proxyDir ["components"]
    libraryManifest :=
      match t.libraryManifest with
      | some path => Path.resolve rootDir path
      | none => Path.join proxyDir ["..", "..", "..", "package.json"] }

/-- An entry of a build's output targets. -/
structure BuildOutput where
  kind : String
  options : Json.Members := []

/-- The part of a build configuration that is read. -/
structure BuildConfig where
  rootDir : String
  outputs : List BuildOutput := []

namespace BuildConfig

/-- The build output that standalone wrappers import their definers from. -/
def customElementsKind : String := "dist-custom-elements"

/-- The build output that this library writes. -/
def angularKind : String := "angular"

/-- Adds a build output without options. -/
def withOutput (c : BuildConfig) (kind : String) : BuildConfig :=
  { c with outputs := c.outputs ++ [{ kind }] }

def hasOutput (c : BuildConfig) (kind : String) : Bool := c.outputs.any fun o => o.kind == kind

def hasCustomElements (c : BuildConfig) : Bool := c.hasOutput customElementsKind

end BuildConfig

end ElementWrappers
