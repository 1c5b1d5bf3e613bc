import ElementWrappers.CommandLine.Arguments
import ElementWrappers.CommandLine.Inputs
import ElementWrappers.Pass.Run

/-!
# The command

Reads the inputs, makes the passes and reports what they wrote. A dry run makes
the same passes and keeps their writes to itself.
-/

namespace ElementWrappers.CommandLine

/-- The paths of one run, for each target. -/
structure Summary where
  dryRun : Bool
  targets : List (List String)
  deriving DecidableEq, Repr

namespace Summary

def ofPlans (dryRun : Bool) (plans : List Plan) : Summary :=
  ⟨dryRun, plans.map fun p => p.allFiles.map OutputFile.path⟩

def fileCount (s : Summary) : Nat := s.targets.flatten.length

def verb (s : Summary) : String := if s.dryRun then "would write" else "wrote"

/-- A line for each file, and the totals. -/
def lines (s : Summary) : List String :=
  s.targets.flatten.map (fun path => s.verb ++ " " ++ path) ++
    [s.verb ++ " " ++ toString s.fileCount ++ " file(s) for " ++ toString s.targets.length ++
      " output target(s)"]

end Summary

/-- The passes of a run. -/
def passes (dryRun : Bool) (components : List Component) (config : BuildConfig) :
    Script (Except PassError (List Plan)) :=
  if dryRun then ((config.run components).capture []).andThen fun r => .done r.1
  else config.run components

/-- Runs the command in a working directory. -/
def Options.run (o : Options) (workDir : String) : Script (Except CommandError Summary) :=
  (readComponents o.components).andThen fun
    | .error e => .done (.error e)
    | .ok components =>
      (readConfig workDir o.config o.root).andThen fun
        | .error e => .done (.error e)
        | .ok config =>
          (passes o.dryRun components config).andThen fun
            | .error e => .done (.error (.pass e))
            | .ok plans => .done (.ok (.ofPlans o.dryRun plans))

end ElementWrappers.CommandLine
