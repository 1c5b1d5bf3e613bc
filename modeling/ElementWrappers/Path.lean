/-!
# Paths

Slash-separated paths with either slash, read as a walk: `.` and empty
segments stay, `..` goes up, any other segment goes down. The normal form of a
path is where its walk ends, seen from where it starts.
-/

namespace ElementWrappers

/-- Where a walk begins: at the root, or some levels above an unknown
directory. -/
inductive Path.Start where
  | root
  | above (levels : Nat)
  deriving DecidableEq, Repr

/-- A path in normal form. -/
structure Path where
  start : Path.Start
  names : List String
  deriving DecidableEq, Repr

namespace Path

/-- The unknown directory itself. -/
def here : Path := ⟨.above 0, []⟩

/-- One level up; the root is its own parent. -/
def Start.ascend : Start → Start
  | .root => .root
  | .above n => .above (n + 1)

/-- One `..` less. -/
def Start.shorten : Start → Start
  | .root => .root
  | .above n => .above (n - 1)

/-- The `..` segments written for a start. -/
def Start.dots : Start → List String
  | .root => []
  | .above n => List.replicate n ".."

/-- The step taken for one segment. -/
def step (p : Path) (segment : String) : Path :=
  if segment = "" ∨ segment = "." then p
  else if segment = ".." then
    match p.names with
    | [] => { p with start := p.start.ascend }
    | _ :: _ => { p with names := p.names.dropLast }
  else { p with names := p.names ++ [segment] }

/-- Backslashes are slashes. -/
def slash (c : Char) : Char := if c = '\\' then '/' else c

/-- Whether a path text begins with a slash. -/
def isRooted (text : String) : Bool :=
  match text.toList with
  | [] => false
  | c :: _ => slash c == '/'

/-- The segments between the slashes of a path text. -/
def segmentsOf (text : String) : List String :=
  ((text.toList.map slash).splitOn '/').map String.ofList

def ofText (text : String) : Path :=
  (segmentsOf text).foldl step (if isRooted text then ⟨.root, []⟩ else here)

/-- The segments written for a path, the root apart. -/
def segments (p : Path) : List String := p.start.dots ++ p.names

def toText (p : Path) : String :=
  match p.start with
  | .root => "/" ++ "/".intercalate p.segments
  | .above _ =>
    match p.segments with
    | [] => "."
    | s :: rest => "/".intercalate (s :: rest)

/-- The path without the last segment it is written with. -/
def parent (p : Path) : Path :=
  match p.names with
  | [] => { p with start := p.start.shorten }
  | _ :: _ => { p with names := p.names.dropLast }

/-- The last segment of the written path. -/
def last (p : Path) : String :=
  match p.names.getLast? with
  | some name => name
  | none =>
    match p.start with
    | .root => ""
    | .above 0 => "."
    | .above (_ + 1) => ".."

/-! ## Path texts -/

/-- The normal form of a path text. -/
def normalize (text : String) : String := (ofText text).toText

/-- `path` as seen from `base`; a rooted path does not depend on it. -/
def resolve (base path : String) : String :=
  if isRooted path then normalize path else normalize (base ++ "/" ++ path)

/-- `base` followed by further segments. -/
def join (base : String) (further : List String) : String :=
  normalize (further.foldl (fun text segment => text ++ "/" ++ segment) base)

/-- The directory that holds `text`. -/
def directory (text : String) : String := (ofText text).parent.toText

/-- `name` without `extension`, unless nothing would be left. -/
def stripExtension (name extension : String) : String :=
  if extension.toList.isSuffixOf name.toList && extension.length < name.length then
    String.ofList (name.toList.take (name.length - extension.length))
  else name

/-- The last segment of `text`, in normal form, without `extension`. -/
def baseName (text extension : String) : String := stripExtension (ofText text).last extension

/-! ## Relative paths -/

/-- The segments that lead from one place to another: up to the last common
directory, then down. -/
def between : List String → List String → List String
  | a :: as, b :: bs =>
    if a = b then between as bs else List.replicate (as.length + 1) ".." ++ b :: bs
  | as, bs => List.replicate as.length ".." ++ bs

/-- The relative path from directory `origin` to `target`, empty when they are
the same. -/
def relative (origin target : String) : String :=
  "/".intercalate (between (ofText origin).segments (ofText target).segments)

/-- The relative directory of a module specifier always begins with a dot. -/
def dotted : List String → String
  | [] => "."
  | s :: rest =>
    let text := "/".intercalate (s :: rest)
    if s = ".." then text else "./" ++ text

/-- How a module in the file `importer` names the file `target`. -/
def specifier (importer target extension : String) : String :=
  dotted (between (ofText importer).parent.segments (ofText target).parent.segments) ++ "/" ++
    baseName target extension

end Path

end ElementWrappers
