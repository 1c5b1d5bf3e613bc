import ElementWrappers.Layout.ComponentFiles
import ElementWrappers.Component.Basic
import ElementWrappers.Json.Basic

/-!
# The export map

The entries that give each component a subpath of its own. They own all keys
below one subpath of the package; other keys of the map stay as they are.
-/

namespace ElementWrappers

/-- What one subpath stands for. -/
structure ExportEntry where
  tag : String
  types : String
  default : String
  deriving DecidableEq, Repr

namespace ExportEntry

def ofTag (subpath tag : String) : ExportEntry :=
  ⟨tag, "./" ++ subpath ++ "/" ++ tag ++ "/index.d.ts", "./fesm2022/" ++ tag ++ ".mjs"⟩

def toJson (e : ExportEntry) : Json := .obj [("types", .str e.types), ("default", .str e.default)]

end ExportEntry

/-- The entries of a pass, all below one subpath. -/
structure ExportMap where
  subpath : String
  entries : Table ExportEntry

namespace ExportMap

/-- `text` without the slashes at both ends. -/
def trimSlashes (text : String) : String :=
  String.ofList
    (((text.toList.dropWhile (· == '/')).reverse.dropWhile (· == '/')).reverse)

/-- The key of a component. -/
def key (subpath tag : String) : String := "./" ++ subpath ++ "/" ++ tag

def ofComponents (components : List Component) (exportSubpath : String) : ExportMap :=
  let subpath := trimSlashes exportSubpath
  ⟨subpath, Table.ofList
    (components.map fun c => (key subpath c.tag, ExportEntry.ofTag subpath c.tag))⟩

/-- Whether a key lies below the subpath. -/
def owns (m : ExportMap) (key : String) : Bool :=
  ("./" ++ m.subpath ++ "/").toList.isPrefixOf key.toList

/-- The members of an export map; any other value is the root entry of a new
one. -/
def membersOf : Option Json → Json.Members
  | none => []
  | some .null => []
  | some (.obj members) => members
  | some v => [(".", v)]

/-- The export map with the entries of `m` and none of the keys it owns besides. -/
def mergeExports (m : ExportMap) (exports : Json.Members) : Json.Members :=
  m.entries.entries.foldl (fun done entry => Entries.insert done entry.1 entry.2.toJson)
    (exports.filter fun member => !m.owns member.1 || m.entries.entries.has member.1)

/-- The manifest with the merged export map, free of side effects. -/
def merge (m : ExportMap) (manifest : Json.Members) : Json.Members :=
  let exports := membersOf (Entries.get? manifest "exports")
  Entries.insert (Entries.insert manifest "exports" (.obj (m.mergeExports exports)))
    "sideEffects" (.bool false)

/-- The text of the file that an entry takes its types from. -/
def declarationText (e : ExportEntry) (file componentDir : String) : String :=
  "/* auto-generated entry point types for " ++ e.tag ++ " */\nexport \x7b " ++
    Naming.className e.tag ++ " \x7d from " ++
    Naming.quoted (Path.specifier file (ComponentFiles.path componentDir e.tag) ".ts") ++ ";\n"

/-- The files that the entries take their types from. -/
def declarations (m : ExportMap) (libraryRoot componentDir : String) : List OutputFile :=
  m.entries.entries.map fun entry =>
    let file := Path.resolve libraryRoot entry.2.types
    ⟨file, declarationText entry.2 file componentDir⟩

end ExportMap

end ElementWrappers
