import ElementWrappers.Component.Json
import ElementWrappers.Target.Basic

/-!
# Targets as JSON

An output target needs its proxy file, a build configuration its root, a build
output its type, and a value accessor everything.
-/

namespace ElementWrappers

open Json (Fields)

/-! ## Value accessors -/

namespace Selectors

def toJson : Selectors → Json
  | .one s => .str s
  | .many ss => .arr (ss.map Json.str)

def ofJson? : Json → Option Selectors
  | .str s => some (.one s)
  | v => (Json.list? Json.string? v).map Selectors.many

end Selectors

namespace AccessorConfig

def toJson (c : AccessorConfig) : Json :=
  .obj [("elementSelectors", c.selectors.toJson), ("event", .str c.event),
    ("targetAttr", .str c.attr), ("type", .str c.kind.name)]

def ofJson? (v : Json) : Option AccessorConfig := do
  let fields ← v.record? ["elementSelectors", "event", "targetAttr", "type"]
  let selectors ← fields.get "elementSelectors" Selectors.ofJson?
  let event ← fields.get "event" Json.string?
  let attr ← fields.get "targetAttr" Json.string?
  let kind ← fields.get "type" fun v => v.alternative?.bind AccessorKind.ofName?
  return { selectors, event, attr, kind }

end AccessorConfig

/-! ## Targets -/

namespace Target

def toJson (t : Target) : Json :=
  .obj [("componentCorePackage", .ofOption t.corePackage),
    ("directivesProxyFile", .str t.proxyFile),
    ("directivesArrayFile", .ofOption t.arrayFile),
    ("outputType", .str t.outputType.name),
    ("customElementsDir", .str t.customElementsDir),
    ("excludeComponents", .arr (t.excluded.map Json.str)),
    ("inlineProperties", .bool t.inlineProperties),
    ("individualComponentExport", .bool t.individualExport),
    ("componentOutputDir", .ofOption t.componentDir),
    ("valueAccessorConfigs", .arr (t.accessors.map AccessorConfig.toJson)),
    ("exportSubpath", .str t.exportSubpath),
    ("libraryPackageJson", .ofOption t.libraryManifest)]

def optionalString? : Json → Option (Option String) := Json.optional? Json.string?

def ofJson? (v : Json) : Option Target := do
  let fields ← v.record?
    ["componentCorePackage", "directivesProxyFile", "directivesArrayFile", "outputType",
      "customElementsDir", "excludeComponents", "inlineProperties", "individualComponentExport",
      "componentOutputDir", "valueAccessorConfigs", "exportSubpath", "libraryPackageJson"]
  let corePackage ← fields.getD "componentCorePackage" none optionalString?
  let proxyFile ← fields.get "directivesProxyFile" Json.string?
  let arrayFile ← fields.getD "directivesArrayFile" none optionalString?
  let outputType ← fields.getD "outputType" .component fun v =>
    v.alternative?.bind OutputType.ofName?
  let customElementsDir ← fields.getD "customElementsDir" "components" Json.string?
  let excluded ← fields.getD "excludeComponents" [] (Json.list? Json.string?)
  let inlineProperties ← fields.getD "inlineProperties" false Json.bool?
  let individualExport ← fields.getD "individualComponentExport" false Json.bool?
  let componentDir ← fields.getD "componentOutputDir" none optionalString?
  let accessors ← fields.getD "valueAccessorConfigs" [] (Json.list? AccessorConfig.ofJson?)
  let exportSubpath ← fields.getD "exportSubpath" "components" Json.string?
  let libraryManifest ← fields.getD "libraryPackageJson" none optionalString?
  return ⟨corePackage, proxyFile, arrayFile, outputType, customElementsDir, excluded,
    inlineProperties, individualExport, componentDir, accessors, exportSubpath, libraryManifest⟩

end Target

/-! ## Build configurations -/

namespace BuildOutput

def toJson (o : BuildOutput) : Json := .obj (("type", .str o.kind) :: o.options)

/-- All members but the type are options. -/
def ofJson? : Json → Option BuildOutput
  | .obj members =>
    match Entries.get? members "type" with
    | some (.str kind) => some ⟨kind, members.filter fun m => m.1 != "type"⟩
    | _ => none
  | _ => none

end BuildOutput

namespace BuildConfig

def toJson (c : BuildConfig) : Json :=
  .obj [("rootDir", .str c.rootDir), ("outputTargets", .arr (c.outputs.map BuildOutput.toJson))]

def ofJson? (v : Json) : Option BuildConfig := do
  let fields ← v.record? ["rootDir", "outputTargets"]
  let rootDir ← fields.get "rootDir" Json.string?
  let outputs ← fields.getD "outputTargets" [] (Json.list? BuildOutput.ofJson?)
  return { rootDir, outputs }

/-- The targets of all Angular outputs, if their options are right. -/
def angularTargets? (c : BuildConfig) : Option (List Target) :=
  Json.decodeAll Target.ofJson?
    ((c.outputs.filter fun o => o.kind == angularKind).map fun o => .obj o.options)

end BuildConfig

/-- The place of a package's type declarations, by its manifest. -/
def packageTypes? (v : Json) : Option (Option String) := do
  let fields ← v.record? ["types"]
  fields.getD "types" none (Json.optional? Json.string?)

end ElementWrappers
