import ElementWrappers.Entries
import ElementWrappers.OutputFile
import ElementWrappers.Pass.Error

/-!
# Scripts of reads and writes

What a pass does to files, apart from the files themselves. A script runs on
anything that can be read and written; `capture` turns it into one that only
reads, and answers reads from what it would have written.
-/

namespace ElementWrappers

/-- A sequence of reads and writes with a result. A write says whether it
succeeded. -/
inductive Script (α : Type) where
  | done (result : α)
  | read (path : String) (next : Except ReadFault String → Script α)
  | write (path content : String) (next : Bool → Script α)

namespace Script

variable {α β : Type}

/-- Goes on with the result. -/
def andThen : Script α → (α → Script β) → Script β
  | done a, f => f a
  | read path next, f => .read path fun r => (next r).andThen f
  | write path content next, f => .write path content fun ok => (next ok).andThen f

/-- The texts of some files, and nothing about any other. -/
def view : List String → Script (String → Except ReadFault String)
  | [] => .done fun _ => .error .missing
  | path :: rest =>
    .read path fun r => (view rest).andThen fun v => .done fun p => if p = path then r else v p

/-- Writes files one after the other, up to the first that fails. -/
def writeAll : List OutputFile → Script (Except PassError Unit)
  | [] => .done (.ok ())
  | f :: rest =>
    .write f.path f.content fun ok =>
      if ok then writeAll rest else .done (.error (.unwritable f.path))

/-- The script that keeps its writes, on top of those kept already. -/
def capture (kept : Entries String) : Script α → Script (α × Entries String)
  | done a => .done (a, kept)
  | read path next =>
    match kept.get? path with
    | some text => capture kept (next (.ok text))
    | none => .read path fun r => capture kept (next r)
  | write path content next => capture (kept.insert path content) (next true)

end Script

/-- Files that scripts run on. -/
class FileSystem (σ : Type) where
  read : σ → String → Except ReadFault String
  /-- Whether the write succeeded, and the files after it. -/
  write : σ → String → String → Bool × σ

/-- Runs a script; the result, and the files afterwards. -/
def Script.run {σ α : Type} [FileSystem σ] : Script α → σ → α × σ
  | .done a, s => (a, s)
  | .read path next, s => (next (FileSystem.read s path)).run s
  | .write path content next, s =>
    let (ok, s') := FileSystem.write s path content
    (next ok).run s'

theorem Script.run_andThen {σ α β : Type} [FileSystem σ] (x : Script α) (f : α → Script β)
    (s : σ) : (x.andThen f).run s = (f (x.run s).1).run (x.run s).2 := by
  induction x generalizing s with
  | done a => rfl
  | read path next ih => exact ih _ s
  | write path content next ih => exact ih _ _

/-- A script that keeps its writes leaves the files alone. -/
theorem Script.run_capture_snd {σ α : Type} [FileSystem σ] (x : Script α)
    (kept : Entries String) (s : σ) : ((x.capture kept).run s).2 = s := by
  induction x generalizing kept with
  | done a => rfl
  | read path next ih =>
    rw [Script.capture]
    cases kept.get? path with
    | some text => exact ih _ _
    | none => exact ih _ _
  | write path content next ih => exact ih _ _

end ElementWrappers
