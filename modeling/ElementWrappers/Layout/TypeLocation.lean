import ElementWrappers.Target.Basic

/-!
# Where types are imported from

Either the core package, or the type declarations that the component build
leaves beside the types of the package at the root.
-/

namespace ElementWrappers

structure TypeLocation where
  corePackage : Option String
  /-- The file of the generated type declarations. -/
  typings : String
  deriving DecidableEq, Repr

namespace TypeLocation

/-- The file that the component build declares its types in. -/
def typingsFile : String := "components.d.ts"

/-- The location for a target; `types` is what the manifest at the root says. -/
def ofTarget (t : Target) (types : Option String) (rootDir : String) : TypeLocation :=
  ⟨t.corePackage, Path.join rootDir [Path.directory (types.getD typingsFile), typingsFile]⟩

/-- The module that the file `importer` imports types from. -/
def moduleFrom (l : TypeLocation) (importer : String) : String :=
  match l.corePackage with
  | some package => Path.normalize package
  | none => Path.specifier importer l.typings ".d.ts"

/-- The module inside the directory of the element definers. -/
def moduleInside (l : TypeLocation) (importer directory : String) : String :=
  l.moduleFrom importer ++ "/" ++ directory

end TypeLocation

end ElementWrappers
