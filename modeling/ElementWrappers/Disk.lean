import ElementWrappers.Entries
import ElementWrappers.Pass.Script
import ElementWrappers.Text.Utf8

/-!
# The disk

A tree of files and directories in memory, with a working directory. A path is
walked one segment after the other, through directories only.
-/

namespace ElementWrappers

/-- What a place of the tree holds. -/
inductive Node where
  | file (bytes : List UInt8)
  | directory
  deriving DecidableEq, Repr

structure Disk where
  /-- The segments of the working directory. -/
  workDir : List String
  /-- By the segments of their places, joined by slashes. The root is not listed. -/
  nodes : Entries Node

namespace Disk

/-- The text of a place. -/
def placeText (place : List String) : String := "/".intercalate place

/-- What is at a place. The root is a directory. -/
def node? (d : Disk) (place : List String) : Option Node :=
  match place with
  | [] => some .directory
  | s :: rest => d.nodes.get? (placeText (s :: rest))

def put (d : Disk) (place : List String) (node : Node) : Disk :=
  { d with nodes := d.nodes.insert (placeText place) node }

/-- The number of bytes that a name may have. -/
def longestName : Nat := 255

def isName (segment : String) : Bool :=
  decide (segment.utf8ByteSize ≤ longestName) && !segment.toList.contains '\x00'

/-- The number of bytes that a path may have, however it is written. -/
def longestPath : Nat := 4095

def isPath (path : String) : Bool :=
  decide (path.utf8ByteSize ≤ longestPath) && !path.toList.contains '\x00'

/-- Where a walk begins. -/
def origin (d : Disk) (path : String) : List String :=
  if path.toList.head? == some '/' then [] else d.workDir

def segmentsOf (path : String) : List String := (path.toList.splitOn '/').map String.ofList

/-- The place after one more segment. -/
def enter (place : List String) (segment : String) : List String :=
  if segment = "" ∨ segment = "." then place
  else if segment = ".." then place.dropLast
  else place ++ [segment]

/-! ## Reading -/

/-- The place that the segments lead to. -/
def walk (d : Disk) (place : List String) : List String → Except ReadFault (List String)
  | [] => .ok place
  | s :: rest =>
    match d.node? place with
    | none => .error .missing
    | some (.file _) => .error .unreadable
    | some .directory => if isName s then d.walk (enter place s) rest else .error .unreadable

/-- The text of a file. Bytes that are no UTF-8 cannot be read. -/
def read (d : Disk) (path : String) : Except ReadFault String :=
  if path = "" then .error .missing
  else if !isPath path then .error .unreadable
  else
    match d.walk (d.origin path) (segmentsOf path) with
    | .error e => .error e
    | .ok place =>
      match d.node? place with
      | none => .error .missing
      | some .directory => .error .unreadable
      | some (.file bytes) =>
        match Text.decode? bytes with
        | none => .error .unreadable
        | some text => .ok text

/-! ## Writing -/

/-- Walks and makes the directories that are missing. -/
def makeWay (d : Disk) (place : List String) : List String → Option (Disk × List String)
  | [] => some (d, place)
  | s :: rest =>
    if isName s then
      match d.node? (enter place s) with
      | some (.file _) => none
      | some .directory => d.makeWay (enter place s) rest
      | none => (d.put (enter place s) .directory).makeWay (enter place s) rest
    else none

/-- Puts bytes into a file, with the directories above it. -/
def store (d : Disk) (path : String) (bytes : List UInt8) : Option Disk :=
  match d.makeWay (d.origin path) (segmentsOf path).dropLast, (segmentsOf path).getLast? with
  | some (d, place), some name =>
    if isPath path ∧ enter place name = place ++ [name] ∧ isName name then
      match d.node? (place ++ [name]) with
      | some .directory => none
      | _ => some (d.put (place ++ [name]) (.file bytes))
    else none
  | _, _ => none

def write (d : Disk) (path content : String) : Bool × Disk :=
  match d.store path (Text.encode content) with
  | some d => (true, d)
  | none => (false, d)

instance : FileSystem Disk := ⟨read, write⟩

/-! ## Whole trees -/

/-- A disk with nothing but the working directory. -/
def empty (workDir : String) : Disk :=
  match makeWay ⟨[], []⟩ [] (segmentsOf workDir) with
  | some (d, place) => { d with workDir := place }
  | none => ⟨[], []⟩

/-- Adds a file, or a directory where there are no bytes. -/
def add (d : Disk) (path : String) (bytes : Option (List UInt8)) : Disk :=
  match bytes with
  | some bytes => (d.store path bytes).getD d
  | none => ((d.makeWay (d.origin path) (segmentsOf path)).map Prod.fst).getD d

/-- The path of a place as seen from the working directory, if it lies below it. -/
def fromWorkDir? (d : Disk) (place : String) : Option String :=
  let base := (placeText (d.workDir ++ [""])).toList
  if base.isPrefixOf place.toList then some (String.ofList (place.toList.drop base.length))
  else none

/-- The files below the working directory, in the order of their paths. -/
def files (d : Disk) : Entries (List UInt8) :=
  (d.nodes.filterMap fun
    | (place, .file bytes) => (d.fromWorkDir? place).map (·, bytes)
    | (_, .directory) => none).mergeSort fun a b => decide (a.1 ≤ b.1)

end Disk

end ElementWrappers
