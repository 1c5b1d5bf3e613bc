import ElementWrappers.Json.Basic

/-!
# What can fail in a pass
-/

namespace ElementWrappers

/-- Why a file gives no text. -/
inductive ReadFault where
  | missing
  | unreadable
  deriving DecidableEq, Repr

/-- Why a pass stops. -/
inductive PassError where
  /-- Files for single components need a build of the custom elements. -/
  | missingCustomElements
  | unreadable (path : String)
  | unwritable (path : String)
  | invalidJson (path : String) (fault : Json.Fault)
  /-- A manifest that is no object. -/
  | invalidManifest (path : String)
  deriving DecidableEq, Repr

namespace PassError

def message : PassError → String
  | .missingCustomElements =>
    "Standalone components with individual component export require a \"dist-custom-elements\" " ++
      "output target to be configured. Add \x7b type: \"dist-custom-elements\", " ++
      "customElementsExportBehavior: \"single-export-module\" \x7d to the outputTargets array of " ++
      "your build configuration"
  | .unreadable path => "failed to read " ++ path
  | .unwritable path => "failed to write " ++ path
  | .invalidJson path _ => "invalid JSON in " ++ path
  | .invalidManifest path => "package manifest " ++ path ++ " must contain a JSON object"

/-- Whether the build configuration has to be mended. -/
def isConfiguration : PassError → Bool
  | .missingCustomElements => true
  | _ => false

end PassError

end ElementWrappers
