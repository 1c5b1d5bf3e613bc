import ElementWrappers.Json.Printer
import ElementWrappers.Json.Reader
import ElementWrappers.Pass.Error

/-!
# Package manifests

A manifest is an object. A missing or blank file is an empty one.
-/

namespace ElementWrappers.Manifest

/-- The manifest that a file holds. -/
def ofText (path text : String) : Except PassError Json.Members :=
  if (Text.trim text.toList).isEmpty then .ok []
  else
    match Json.read text with
    | .error fault => .error (.invalidJson path fault)
    | .ok (.obj members) => .ok members
    | .ok _ => .error (.invalidManifest path)

/-- The manifest by what was read at its path. -/
def ofRead (path : String) : Except ReadFault String → Except PassError Json.Members
  | .ok text => ofText path text
  | .error .missing => .ok []
  | .error .unreadable => .error (.unreadable path)

/-- The text of a manifest, with a line break at its end. -/
def text (manifest : Json.Members) : String := (Json.obj manifest).pretty ++ "\n"

end ElementWrappers.Manifest
