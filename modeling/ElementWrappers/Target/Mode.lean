import ElementWrappers.Target.Basic
import ElementWrappers.Wrapper.Basic

/-!
# Output modes

How the wrappers of a pass are laid out in files, and how that decides the way
they are generated.
-/

namespace ElementWrappers

inductive OutputMode where
  /-- All wrappers in the proxy file. -/
  | aggregate
  /-- All wrappers in the proxy file, each with its module. -/
  | moduleEach
  /-- Standalone wrappers, in the proxy file or in one file each. -/
  | standalone (fileEach : Bool)
  deriving DecidableEq, Repr

namespace OutputMode

def ofTarget (t : Target) : OutputMode :=
  match t.outputType with
  | .component => .aggregate
  | .scam => .moduleEach
  | .standalone => .standalone t.individualExport

/-- Whether each wrapper has a file of its own. -/
def isPerComponent (m : OutputMode) : Bool := m == .standalone true

/-- Whether wrappers import element definers. -/
def usesCustomElements (m : OutputMode) : Bool := m != .aggregate

def isStandalone : OutputMode → Bool
  | .standalone _ => true
  | _ => false

def name : OutputMode → String
  | .aggregate => "aggregate"
  | .moduleEach => "single-module-per-component"
  | .standalone false => "standalone"
  | .standalone true => "standalone-individual-export"

def wrapperOptions (m : OutputMode) (t : Target) (typeModule : String) : WrapperOptions where
  importsDefiner := m.usesCustomElements
  standalone := m.isStandalone
  inlineProperties := t.inlineProperties
  withModule := m == .moduleEach
  typeModule := typeModule

end OutputMode

end ElementWrappers
