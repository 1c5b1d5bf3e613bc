/-!
# Raw paths

Paths as they were given. Joining them changes nothing inside them, so the text
of a joined path shows what it was made from.
-/

namespace ElementWrappers.CommandLine.RawPath

def isAbsolute (path : String) : Bool := path.toList.head? == some '/'

/-- `path` seen from `base`. -/
def join (base path : String) : String :=
  if isAbsolute path || base = "" then path
  else if base.toList.getLast? == some '/' then base ++ path
  else base ++ "/" ++ path

/-- `path` seen from the working directory, if it depends on it. -/
def absolute (workDir path : String) : String :=
  if isAbsolute path then path else join workDir path

/-! ## Parents -/

/-- The slash or dot that a path begins with, and the rest. -/
def splitHead (path : List Char) : List Char × List Char :=
  match path with
  | '/' :: rest => (['/'], rest)
  | ['.'] => (['.'], [])
  | '.' :: '/' :: rest => (['.'], '/' :: rest)
  | rest => ([], rest)

/-- Segments that lead nowhere. -/
def isIdle (segment : List Char) : Bool := segment == [] || segment == ['.']

/-- `segments` up to the last one that leads somewhere. -/
def dropIdle (segments : List (List Char)) : List (List Char) :=
  (segments.reverse.dropWhile isIdle).reverse

/-- The path without its last segment. -/
def parent? (path : String) : Option String :=
  let (head, body) := splitHead path.toList
  match dropIdle (body.splitOn '/') with
  | [] => if head == ['.'] then some "" else none
  | s :: rest =>
    some (String.ofList (head ++ ['/'].intercalate (dropIdle (s :: rest).dropLast)))

/-- The directory of a file. -/
def directory (path : String) : String := (parent? path).getD "."

end ElementWrappers.CommandLine.RawPath
