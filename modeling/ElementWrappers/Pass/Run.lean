import ElementWrappers.Pass.Plan
import ElementWrappers.Pass.Script

/-!
# Passes

A pass reads what its plan depends on, and writes the plan: first every file but
the manifest, then the manifest. A run makes one pass for each Angular target,
up to the first that fails.
-/

namespace ElementWrappers

/-- The files that the plan of a target depends on. -/
def Target.dependencies (t : Target) (rootDir : String) : List String :=
  (if t.corePackage.isNone then [Target.rootManifest rootDir] else []) ++
    if (OutputMode.ofTarget t).isPerComponent then [(t.paths rootDir).libraryManifest] else []

/-- Writes a plan. -/
def Plan.commit (p : Plan) : Script (Except PassError Plan) :=
  (Script.writeAll p.files).andThen fun
    | .error e => .done (.error e)
    | .ok () =>
      (Script.writeAll p.manifest.toList).andThen fun
        | .error e => .done (.error e)
        | .ok () => .done (.ok p)

/-- The pass of one target. -/
def Target.pass (t : Target) (components : List Component) (config : BuildConfig) :
    Script (Except PassError Plan) :=
  (Script.view (t.dependencies config.rootDir)).andThen fun view =>
    match t.plan view components config with
    | .error e => .done (.error e)
    | .ok p => p.commit

/-- The passes of several targets. -/
def passAll (components : List Component) (config : BuildConfig) :
    List Target → Script (Except PassError (List Plan))
  | [] => .done (.ok [])
  | t :: rest =>
    (t.pass components config).andThen fun
      | .error e => .done (.error e)
      | .ok p =>
        (passAll components config rest).andThen fun
          | .error e => .done (.error e)
          | .ok ps => .done (.ok (p :: ps))

/-- A pass for each Angular target of a build. -/
def BuildConfig.run (config : BuildConfig) (components : List Component) :
    Script (Except PassError (List Plan)) :=
  match config.angularTargets? with
  | none => .done (.error (.invalidJson "outputTargets" .misshapen))
  | some targets => passAll components config targets

end ElementWrappers
