import ElementWrappers.Component.Basic
import ElementWrappers.Layout.ComponentFiles

/-!
# The directives array

A file that lists the wrapper classes in one array.
-/

namespace ElementWrappers

/-- Where the wrapper classes are declared. -/
inductive DirectiveSource where
  /-- All in this file. -/
  | proxyFile (path : String)
  /-- Each in its file in this directory. -/
  | componentDir (path : String)
  deriving DecidableEq, Repr

namespace DirectiveSource

/-- The import of one class from its own file. -/
def classImport (arrayFile directory : String) (c : Component) : String :=
  "import \x7b " ++ Naming.className c.tag ++ " \x7d from " ++
    Naming.quoted (Path.specifier arrayFile (ComponentFiles.path directory c.tag) ".ts") ++ ";"

def importText (s : DirectiveSource) (arrayFile : String) (components : List Component) : String :=
  match s with
  | .proxyFile path =>
    "import * as d from " ++ Naming.quoted (Path.specifier arrayFile path ".ts") ++ ";"
  | .componentDir path => "\n".intercalate (components.map (classImport arrayFile path))

/-- How the array names the class of a component. -/
def entry (s : DirectiveSource) (c : Component) : String :=
  match s with
  | .proxyFile _ => "d." ++ Naming.className c.tag
  | .componentDir _ => Naming.className c.tag

end DirectiveSource

/-- The text of the array file. -/
def directivesText (components : List Component) (arrayFile : String) (source : DirectiveSource) :
    String :=
  source.importText arrayFile components ++ "\n\nexport const DIRECTIVES = [" ++
    match components with
    | [] => "];\n"
    | c :: rest => "\n  " ++ ",\n  ".intercalate ((c :: rest).map source.entry) ++ "\n];\n"

end ElementWrappers
