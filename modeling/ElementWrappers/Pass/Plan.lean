import ElementWrappers.Component.Selection
import ElementWrappers.Layout.Directives
import ElementWrappers.Layout.ProxyFile
import ElementWrappers.Manifest.Basic
import ElementWrappers.Manifest.ExportMap
import ElementWrappers.Target.Json
import ElementWrappers.ValueAccessor.Source

/-!
# Plans

Everything that one pass writes, computed before anything is written.
-/

namespace ElementWrappers

/-- What is known about the files before a pass: the text at each path. -/
abbrev FileView := String → Except ReadFault String

namespace Target

/-- Refuses a target that gives no working output. -/
def validate (t : Target) (config : BuildConfig) : Except PassError Unit :=
  if t.outputType = .standalone && t.individualExport && !config.hasCustomElements then
    .error .missingCustomElements
  else .ok ()

/-- The package manifest at the root of the build. -/
def rootManifest (rootDir : String) : String := Path.join rootDir ["package.json"]

/-- What the manifest at the root says about types. A core package makes it
irrelevant. -/
def readTypes (t : Target) (view : FileView) (rootDir : String) :
    Except PassError (Option String) :=
  match t.corePackage with
  | some _ => .ok none
  | none =>
    let path := rootManifest rootDir
    match Manifest.ofRead path (view path) with
    | .error e => .error e
    | .ok manifest =>
      match packageTypes? (.obj manifest) with
      | none => .error (.invalidJson path .misshapen)
      | some types => .ok types

end Target

/-- What the files of a pass are generated from. -/
structure Assembly where
  target : Target
  paths : TargetPaths
  /-- The components that get a wrapper, in order. -/
  components : List Component
  location : TypeLocation

namespace Assembly

def mode (a : Assembly) : OutputMode := .ofTarget a.target

def supportFile (a : Assembly) : String := ProxyFile.supportFile a.paths

/-- Where the wrappers import their types from. -/
def typeModule (a : Assembly) : String :=
  if a.mode.isPerComponent then
    a.location.moduleInside (ComponentFiles.path a.paths.componentDir "index")
      a.target.customElementsDir
  else if a.mode.usesCustomElements then
    a.location.moduleInside a.paths.proxyFile a.target.customElementsDir
  else a.location.moduleFrom a.paths.proxyFile

def wrappers (a : Assembly) : List Wrapper :=
  a.components.map fun c => .ofComponent c (a.mode.wrapperOptions a.target a.typeModule)

/-- The proxy file, and the wrapper files if there are any. -/
def wrapperFiles (a : Assembly) : List OutputFile :=
  if a.mode.isPerComponent then
    ⟨a.paths.proxyFile, ProxyFile.barrelText a.paths⟩ ::
      ComponentFiles.files a.wrappers a.paths.componentDir a.supportFile a.typeModule
  else [⟨a.paths.proxyFile, ProxyFile.text a.wrappers a.mode a.location a.target a.paths⟩]

def directiveSource (a : Assembly) : DirectiveSource :=
  if a.mode.isPerComponent then .componentDir a.paths.componentDir else .proxyFile a.paths.proxyFile

def arrayFiles (a : Assembly) : List OutputFile :=
  match a.paths.arrayFile with
  | none => []
  | some path => [⟨path, directivesText a.components path a.directiveSource⟩]

/-- All files that every mode has. -/
def files (a : Assembly) : List OutputFile :=
  a.wrapperFiles ++ [⟨a.supportFile, Support.source⟩] ++ a.arrayFiles ++
    ValueAccessor.files a.target.accessors a.paths.proxyDir

def exportMap (a : Assembly) : ExportMap := .ofComponents a.components a.target.exportSubpath

def declarations (a : Assembly) : List OutputFile :=
  a.exportMap.declarations (Path.directory a.paths.libraryManifest) a.paths.componentDir

end Assembly

/-- Everything that one pass writes. -/
structure Plan where
  mode : OutputMode
  wrappers : List Wrapper
  files : List OutputFile
  /-- The manifest with the export map, written last. -/
  manifest : Option OutputFile
  deriving DecidableEq, Repr

namespace Plan

/-- Every file, the manifest last. -/
def allFiles (p : Plan) : List OutputFile := p.files ++ p.manifest.toList

/-- The file at a path. -/
def file? (p : Plan) (path : String) : Option OutputFile :=
  p.allFiles.find? fun f => f.path == Path.normalize path

def classNames (p : Plan) : List String := p.wrappers.map Wrapper.className

/-- The plan of an assembly with the manifest before the pass. -/
def ofAssembly (a : Assembly) (view : FileView) : Except PassError Plan :=
  if a.mode.isPerComponent then
    let path := a.paths.libraryManifest
    match Manifest.ofRead path (view path) with
    | .error e => .error e
    | .ok manifest =>
      .ok ⟨a.mode, a.wrappers, a.files ++ a.declarations,
        some ⟨path, Manifest.text (a.exportMap.merge manifest)⟩⟩
  else .ok ⟨a.mode, a.wrappers, a.files, none⟩

end Plan

/-- The plan of one pass. -/
def Target.plan (t : Target) (view : FileView) (components : List Component)
    (config : BuildConfig) : Except PassError Plan :=
  match t.validate config with
  | .error e => .error e
  | .ok () =>
    match t.readTypes view config.rootDir with
    | .error e => .error e
    | .ok types =>
      Plan.ofAssembly
        ⟨t, t.paths config.rootDir, Component.select t.excluded components,
          .ofTarget t types config.rootDir⟩ view

end ElementWrappers
