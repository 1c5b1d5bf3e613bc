import ElementWrappers.OutputFile
import ElementWrappers.Path
import ElementWrappers.Wrapper.Basic

/-!
# One file for each wrapper

Wrapper files, the barrel that exports all of them, and the definitions file
that gives the element definers the names the wrappers import.
-/

namespace ElementWrappers.ComponentFiles

def barrelName : String := "index.ts"

def definitionsName : String := "definitions.ts"

/-- The file of the wrapper of a tag. -/
def path (componentDir tag : String) : String := Path.join componentDir [tag ++ ".ts"]

/-- The import of the `Components` namespace as a type. -/
def namespaceImport (source : String) : String :=
  "import type \x7b Components \x7d from " ++ Naming.quoted source ++ ";"

/-- The sections of a wrapper file. -/
def sections (w : Wrapper) (file support : String) : List String :=
  ["/* tslint:disable */\n/* auto-generated angular directive proxy for " ++ w.tag ++ " */\n" ++
      Naming.namedImport (Support.coreImports w.hasOutputs false) "@angular/core",
    Naming.namedImport (Support.imports w.hasOutputs) (Path.specifier file support ".ts"),
    "\n".intercalate (namespaceImport w.typeModule :: w.importStatements),
    "import \x7b define" ++ w.className ++ " \x7d from './definitions';"] ++
  w.interfaceBlock.toList ++ [w.definition]

def wrapperText (w : Wrapper) (file support : String) : String :=
  "\n\n".intercalate (sections w file support) ++ "\n"

def barrelLine (w : Wrapper) : String :=
  "export \x7b " ++ w.className ++ " \x7d from './" ++ w.tag ++ "';"

def barrelText (wrappers : List Wrapper) : String :=
  "\n".intercalate ("/* auto-generated angular component exports */" :: wrappers.map barrelLine) ++
    "\n"

def definerImport (w : Wrapper) : String :=
  "  defineCustomElement" ++ w.className ++ " as define" ++ w.className

def definerExport (w : Wrapper) : String := "export \x7b define" ++ w.className ++ " \x7d;"

/-- An empty module where there is nothing to define. -/
def definitionsText (wrappers : List Wrapper) (source : String) : String :=
  "/* auto-generated custom element definers */\n" ++
    match wrappers with
    | [] => "export \x7b\x7d;\n"
    | w :: rest =>
      "import \x7b\n" ++ ",\n".intercalate ((w :: rest).map definerImport) ++ "\n\x7d from " ++
        Naming.quoted source ++ ";\n\n" ++ "\n".intercalate ((w :: rest).map definerExport) ++ "\n"

/-- The wrapper files, the barrel and the definitions. -/
def files (wrappers : List Wrapper) (componentDir support definers : String) : List OutputFile :=
  wrappers.map (fun w =>
    ⟨path componentDir w.tag, wrapperText w (path componentDir w.tag) support⟩) ++
  [⟨Path.join componentDir [barrelName], barrelText wrappers⟩,
    ⟨Path.join componentDir [definitionsName], definitionsText wrappers definers⟩]

end ElementWrappers.ComponentFiles
