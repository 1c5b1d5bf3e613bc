import ElementWrappers.Pass.Script
import ElementWrappers.Path

/-!
# The store

Files in memory by their paths in normal form, with paths that refuse writes and
a log of all writes attempted.
-/

namespace ElementWrappers

structure Store where
  files : Entries String := []
  /-- The paths that refuse writes. -/
  refusing : List String := []
  /-- The paths of all writes attempted, in order. -/
  log : List String := []

namespace Store

/-- Puts a file there without a write. -/
def add (s : Store) (path content : String) : Store :=
  { s with files := s.files.insert (Path.normalize path) content }

def ofFiles (files : Entries String) : Store := files.foldl (fun s f => s.add f.1 f.2) {}

/-- Makes the writes to a path fail. -/
def refuse (s : Store) (path : String) : Store :=
  { s with refusing := s.refusing ++ [Path.normalize path] }

def has (s : Store) (path : String) : Bool := s.files.has path

def read (s : Store) (path : String) : Except ReadFault String :=
  match s.files.get? path with
  | some text => .ok text
  | none => .error .missing

def write (s : Store) (path content : String) : Bool × Store :=
  if s.refusing.contains path then (false, { s with log := s.log ++ [path] })
  else (true, { s with files := s.files.insert path content, log := s.log ++ [path] })

instance : FileSystem Store := ⟨read, write⟩

end Store

end ElementWrappers
