import ElementWrappers.CommandLine.Run
import ElementWrappers.Version

/-!
# The program

Runs the command on the files of the system and prints what it says.
-/

namespace ElementWrappers

/-- The text of a file of the system. -/
def readSystemFile (path : String) : IO (Except ReadFault String) := do
  try
    return .ok (← IO.FS.readFile path)
  catch
    | .noFileOrDirectory .. => return .error .missing
    | _ => return .error .unreadable

/-- Writes a file of the system, with the directories above it. -/
def writeSystemFile (path content : String) : IO Bool := do
  try
    IO.FS.createDirAll (Path.directory path)
    IO.FS.writeFile path content
    return true
  catch _ => return false

/-- Runs a script on the files of the system. -/
def Script.perform {α : Type} (verbose : Bool) : Script α → IO α
  | .done a => return a
  | .read path next => do (next (← readSystemFile path)).perform verbose
  | .write path content next => do
    if verbose then IO.eprintln ("writing " ++ path)
    (next (← writeSystemFile path content)).perform verbose

namespace CommandLine

def usage : String :=
  "Generate Angular wrappers for custom elements\n\n" ++
    "Usage: element-wrappers [OPTIONS] --components <PATH> --config <PATH>\n\n" ++
    "Options:\n" ++
    "  -c, --components <PATH>  Component metadata JSON exported by the component build\n" ++
    "  -p, --config <PATH>      Build configuration JSON holding the outputTargets array\n" ++
    "      --root <DIR>         Overrides the rootDir of the build configuration\n" ++
    "      --dry-run            Print the files that would be written without writing them\n" ++
    "  -v, --verbose            Log every written file\n" ++
    "  -h, --help               Print help\n" ++
    "  -V, --version            Print version"

def ArgumentFault.message : ArgumentFault → String
  | .unknown => "unexpected argument"
  | .missingRequired => "--components and --config are required"
  | .missingValue => "an option has no value"
  | .repeated => "an option is given twice"
  | .unexpectedValue => "a flag takes no value"
  | .helpAsked => usage
  | .versionAsked => "element-wrappers " ++ version

def faultText : Json.Fault → String
  | .unfinished => "the text ends inside a value"
  | .malformed => "malformed JSON"
  | .misshapen => "a value of another shape"

/-- What led to an error, the outermost cause first. -/
def CommandError.causes : CommandError → List String
  | .unreadableComponents _ => ["the file cannot be read"]
  | .unreadableConfig _ => ["the file cannot be read"]
  | .invalidComponents _ fault => [faultText fault]
  | .invalidConfig _ fault => [faultText fault]
  | .pass cause =>
    cause.message ::
      match cause with
      | .invalidJson _ fault => [faultText fault]
      | _ => []

/-- Runs the command with the given arguments; the exit code. -/
def runProgram (arguments : List String) : IO UInt32 := do
  match Options.ofArguments arguments with
  | .error .helpAsked => IO.println ArgumentFault.helpAsked.message; return 0
  | .error .versionAsked => IO.println ArgumentFault.versionAsked.message; return 0
  | .error fault => IO.eprintln ("error: " ++ fault.message); return 2
  | .ok options =>
    let workDir ← IO.currentDir
    match ← (options.run workDir.toString).perform options.verbose with
    | .ok summary =>
      for line in summary.lines do IO.println line
      return 0
    | .error e =>
      IO.eprintln ("Error: " ++ e.context)
      for cause in e.causes do IO.eprintln ("  caused by: " ++ cause)
      return 1

end CommandLine

end ElementWrappers

def main (arguments : List String) : IO UInt32 :=
  ElementWrappers.CommandLine.runProgram arguments
