import ElementWrappers.Pass.Run
import ElementWrappers.Pass.Store
import ElementWrappers.Text.Utf8

/-!
# Sessions

Operations on one store, one after the other. A rehearsal runs the same
operations and keeps what they write to itself.
-/

namespace ElementWrappers

/-- One use of the files. -/
inductive Operation where
  /-- Whether a file is there. -/
  | has (path : String)
  | read (path : String)
  | readManifest (path : String)
  | write (path : String) (bytes : List UInt8)
  /-- Directories need not be made. -/
  | makeDirectory (path : String)
  | pass (target : Target) (components : List Component) (config : BuildConfig)
  | run (components : List Component) (config : BuildConfig)

/-- What an operation says. -/
inductive Outcome where
  | present (found : Bool)
  | text (result : Except ReadFault String)
  | manifest (result : Except PassError Json.Members)
  | written (succeeded : Bool)
  | directoryMade
  | plan (result : Except PassError Plan)
  | plans (result : Except PassError (List Plan))

/-- What an operation does to files. Files hold text: malformed bytes are
replaced when they are written. -/
def Operation.script : Operation → Script Outcome
  | .has path => .read (Path.normalize path) fun r => .done (.present r.isOk)
  | .read path => .read (Path.normalize path) fun r => .done (.text r)
  | .readManifest path =>
    .read (Path.normalize path) fun r => .done (.manifest (Manifest.ofRead (Path.normalize path) r))
  | .write path bytes =>
    .write (Path.normalize path) (Text.decodeLossy bytes) fun ok => .done (.written ok)
  | .makeDirectory _ => .done .directoryMade
  | .pass target components config =>
    (target.pass components config).andThen fun r => .done (.plan r)
  | .run components config => (config.run components).andThen fun r => .done (.plans r)

/-- A store, and the writes that a rehearsal keeps from it. -/
structure Session where
  store : Store
  kept : Option (Entries String) := none

namespace Session

/-- Runs a script on the store, or on top of the writes kept. -/
def perform {α : Type} (s : Session) (x : Script α) : α × Session :=
  match s.kept with
  | none =>
    let (a, store) := x.run s.store
    (a, { s with store })
  | some kept =>
    let ((a, kept), store) := (x.capture kept).run s.store
    (a, ⟨store, some kept⟩)

def operate (s : Session) (o : Operation) : Outcome × Session := s.perform o.script

/-- The outcomes of several operations, and the session after them. -/
def operateAll (s : Session) : List Operation → List Outcome × Session
  | [] => ([], s)
  | o :: rest =>
    let (outcome, s) := s.operate o
    let (outcomes, s) := operateAll s rest
    (outcome :: outcomes, s)

/-- The files written: those of the store, or those kept from it. -/
def written (s : Session) : Entries String :=
  match s.kept with
  | none => s.store.files
  | some kept => kept

end Session

end ElementWrappers
