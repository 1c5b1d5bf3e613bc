import ElementWrappers.CommandLine.RawPath
import ElementWrappers.Component.Json
import ElementWrappers.Json.Reader
import ElementWrappers.Pass.Error
import ElementWrappers.Pass.Script
import ElementWrappers.Target.Json

/-!
# Inputs of the command

The components and the build configuration, each in a file of its own. The root
of the build is that of the arguments, or that of the configuration as seen from
its file.
-/

namespace ElementWrappers.CommandLine

/-- Why the command stops. -/
inductive CommandError where
  | unreadableComponents (path : String)
  | invalidComponents (path : String) (fault : Json.Fault)
  | unreadableConfig (path : String)
  | invalidConfig (path : String) (fault : Json.Fault)
  | pass (cause : PassError)
  deriving DecidableEq, Repr

/-- What the command was doing. -/
def CommandError.context : CommandError → String
  | .unreadableComponents path => "failed to read component metadata " ++ path
  | .invalidComponents path _ => "invalid component metadata in " ++ path
  | .unreadableConfig path => "failed to read build configuration " ++ path
  | .invalidConfig path _ => "invalid build configuration in " ++ path
  | .pass _ => "angular proxy generation failed"

/-! ## Components -/

/-- The components of a text. Their shape is checked before the end of the text,
and a repeated key is a fault of shape. -/
def componentsOf (text : String) : Except Json.Fault (List Component) :=
  match Json.readFirst text.toList with
  | .error fault => .error fault
  | .ok (v, rest) =>
    match Component.listOfJson? v with
    | none => .error .misshapen
    | some components => if Json.atEnd rest then .ok components else .error .malformed

def readComponents (path : String) : Script (Except CommandError (List Component)) :=
  .read path fun
    | .error _ => .done (.error (.unreadableComponents path))
    | .ok text =>
      match componentsOf text with
      | .error fault => .done (.error (.invalidComponents path fault))
      | .ok components => .done (.ok components)

/-! ## Configuration -/

/-- The root that a configuration names. -/
def namedRoot? : Json → Option String
  | .obj members => (Entries.get? members "rootDir").bind Json.string?
  | _ => none

/-- The root of the build. -/
def rootOf (workDir path : String) (chosen : Option String) (v : Json) : String :=
  let directory := RawPath.absolute workDir (RawPath.directory path)
  match chosen, namedRoot? v with
  | some root, _ => RawPath.absolute workDir root
  | none, some root => RawPath.join directory root
  | none, none => directory

/-- An object with its root set. -/
def withRoot (root : String) : Json → Json
  | .obj members => .obj (Entries.insert members "rootDir" (.str root))
  | v => v

/-- The configuration that the text of the file `path` gives. -/
def configOf (workDir path : String) (chosen : Option String) (text : String) :
    Except Json.Fault BuildConfig :=
  match Json.read text with
  | .error fault => .error fault
  | .ok v =>
    match BuildConfig.ofJson? (withRoot (rootOf workDir path chosen v) v) with
    | none => .error .misshapen
    | some config => .ok config

def readConfig (workDir path : String) (chosen : Option String) :
    Script (Except CommandError BuildConfig) :=
  .read path fun
    | .error _ => .done (.error (.unreadableConfig path))
    | .ok text =>
      match configOf workDir path chosen text with
      | .error fault => .done (.error (.invalidConfig path fault))
      | .ok config => .done (.ok config)

end ElementWrappers.CommandLine
