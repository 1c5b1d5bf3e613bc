import ElementWrappers.Layout.ComponentFiles
import ElementWrappers.Layout.TypeLocation
import ElementWrappers.Target.Mode

/-!
# The proxy file

Either all wrappers in one file, or the barrel exported once more.
-/

namespace ElementWrappers.ProxyFile

def header : String := "/* tslint:disable */\n/* auto-generated angular directive proxies */\n"

/-- The file of the support module beside the proxy file. -/
def supportFile (paths : TargetPaths) : String :=
  Path.join paths.proxyDir [Support.directory, Support.fileName]

/-- The import of the function that defines one element. -/
def definerImport (elements : String) (w : Wrapper) : String :=
  "import \x7b defineCustomElement as define" ++ w.className ++ " \x7d from " ++
    Naming.quoted (elements ++ "/" ++ w.tag ++ ".js") ++ ";"

/-- What is imported from the component library. -/
def libraryImports (wrappers : List Wrapper) (mode : OutputMode) (location : TypeLocation)
    (target : Target) (paths : TargetPaths) : String :=
  if mode.usesCustomElements then
    let elements := location.moduleInside paths.proxyFile target.customElementsDir
    "\n".intercalate
      (ComponentFiles.namespaceImport elements :: wrappers.map (definerImport elements))
  else
    "import \x7b Components \x7d from " ++ Naming.quoted (location.moduleFrom paths.proxyFile) ++ ";"

/-- The sections of a proxy file that holds all wrappers. -/
def sections (wrappers : List Wrapper) (mode : OutputMode) (location : TypeLocation)
    (target : Target) (paths : TargetPaths) : List String :=
  let hasOutputs := wrappers.any Wrapper.hasOutputs
  [header ++ Naming.namedImport (Support.coreImports hasOutputs (mode == .moduleEach))
      "@angular/core",
    Naming.namedImport (Support.imports hasOutputs)
      (Path.specifier paths.proxyFile (supportFile paths) ".ts"),
    libraryImports wrappers mode location target paths] ++
  wrappers.map Wrapper.aggregateSection

def text (wrappers : List Wrapper) (mode : OutputMode) (location : TypeLocation)
    (target : Target) (paths : TargetPaths) : String :=
  "\n\n".intercalate (sections wrappers mode location target paths) ++ "\n"

/-- The proxy file where each wrapper has its own. -/
def barrelText (paths : TargetPaths) : String :=
  header ++ "export * from " ++
    Naming.quoted (Path.specifier paths.proxyFile
      (Path.join paths.componentDir [ComponentFiles.barrelName]) ".ts") ++ ";\n"

end ElementWrappers.ProxyFile
