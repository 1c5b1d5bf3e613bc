import Mathlib
import ElementWrappers.Proofs.FailedPass

/-!
# Runs over several targets

A run makes the passes of all targets of a build in a row, up to the first that
fails: `PassesAll` has one pass of each, with any order of the writes in it. Each
target is validated by its own pass. So a target that is refused stops a run
before any write only where no other target comes before it:
`Runs.configurationErrors`.
-/

namespace ElementWrappers

/-- The passes of several targets end with a result and a store. -/
inductive PassesAll (components : List Component) (config : BuildConfig) :
    List Target → Store → Except PassError (List Plan) → Store → Prop
  | nil (s : Store) : PassesAll components config [] s (.ok []) s
  | stopped {t : Target} {rest : List Target} {s s' : Store} {e : PassError}
      (pass : t.Passes components config s (.error e) s') :
      PassesAll components config (t :: rest) s (.error e) s'
  | failed {t : Target} {rest : List Target} {s s₁ s' : Store} {p : Plan} {e : PassError}
      (pass : t.Passes components config s (.ok p) s₁)
      (later : PassesAll components config rest s₁ (.error e) s') :
      PassesAll components config (t :: rest) s (.error e) s'
  | passed {t : Target} {rest : List Target} {s s₁ s' : Store} {p : Plan} {ps : List Plan}
      (pass : t.Passes components config s (.ok p) s₁)
      (later : PassesAll components config rest s₁ (.ok ps) s') :
      PassesAll components config (t :: rest) s (.ok (p :: ps)) s'

/-- A run of a build ends with a result and a store. -/
inductive BuildConfig.Runs (config : BuildConfig) (components : List Component) (s : Store) :
    Except PassError (List Plan) → Store → Prop
  | misread (unread : config.angularTargets? = none) :
      Runs config components s (.error (.invalidJson "outputTargets" .misshapen)) s
  | made {targets : List Target} {r : Except PassError (List Plan)} {s' : Store}
      (read : config.angularTargets? = some targets)
      (passes : PassesAll components config targets s r s') : Runs config components s r s'

section Scripts

variable {components : List Component} {config : BuildConfig}

/-- The script of several passes makes them. -/
theorem PassesAll.of_run (targets : List Target) (s : Store) :
    PassesAll components config targets s ((passAll components config targets).run s).1
      ((passAll components config targets).run s).2 := by
  induction targets generalizing s with
  | nil => exact .nil s
  | cons t rest ih =>
    have pass := Target.passes_run t components config s
    have later := ih ((t.pass components config).run s).2
    rw [passAll, Script.run_andThen]
    cases hp : ((t.pass components config).run s).1 with
    | error e =>
      rw [hp] at pass
      exact .stopped pass
    | ok p =>
      rw [hp] at pass
      simp only
      rw [Script.run_andThen]
      cases hr : ((passAll components config rest).run ((t.pass components config).run s).2).1 with
      | error e =>
        rw [hr] at later
        exact .failed pass later
      | ok ps =>
        rw [hr] at later
        exact .passed pass later

/-- The script of a run makes a run. -/
theorem BuildConfig.Runs.of_run (s : Store) :
    config.Runs components s ((config.run components).run s).1
      ((config.run components).run s).2 := by
  unfold BuildConfig.run
  split
  · rename_i h
    exact .misread h
  · rename_i targets h
    exact .made h (.of_run targets s)

end Scripts

/-! ## Logs -/

section Logs

variable {components : List Component} {config : BuildConfig} {s s' : Store}

theorem Batch.length_log {files : List OutputFile} {r : Except PassError Unit}
    (h : Batch files s r s') : s.log.length ≤ s'.log.length := by
  obtain ⟨attempts, -, hlog⟩ := h.exists_attempts
  rw [hlog, List.length_append]
  omega

/-- A pass that succeeds has written. -/
theorem Target.Passes.length_log {t : Target} {p : Plan}
    (h : t.Passes components config s (.ok p) s') : s.log.length < s'.log.length := by
  cases h with
  | @completed _ s₁ _ plan files manifest =>
    have hlast := manifest.length_log
    obtain ⟨order, all, rfl⟩ := files.exists_order_of_ok
    obtain ⟨types, -, ha⟩ := Target.assembly_of_plan plan
    have hm := Assembly.supportFile_mem (t.assembly components config types)
    rw [← Assembly.files_of_ofAssembly ha] at hm
    have hpos : 0 < order.length := List.length_pos_of_mem (all.symm.subset hm)
    rw [Store.log_attempt, List.length_append, List.length_map] at hlast
    omega

theorem PassesAll.length_log {targets : List Target} {ps : List Plan}
    (h : PassesAll components config targets s (.ok ps) s') :
    s.log.length + targets.length ≤ s'.log.length := by
  induction targets generalizing s ps with
  | nil =>
    cases h with
    | nil => exact le_refl _
  | cons t rest ih =>
    cases h with
    | passed pass later =>
      have hfirst := pass.length_log
      have hrest := ih later
      rw [List.length_cons]
      omega

end Logs

/-! ## Runs that a configuration stops -/

section Refusals

variable {components : List Component} {config : BuildConfig} {s s' : Store} {t : Target}

/-- Only a target without its definers gives this error, and its pass has done
nothing. -/
theorem Target.Passes.eq_of_refused
    (h : t.Passes components config s (.error .missingCustomElements) s') :
    t.validate config = .error .missingCustomElements ∧ s' = s := by
  refine ⟨?_, h.eq_of_error nofun⟩
  cases h with
  | refused plan =>
    rcases cases_of_plan_error plan with hv | he | he
    · exact hv
    · cases he
    · cases he
  | broken plan files =>
    obtain ⟨f, -, -, he⟩ := files.exists_refused_of_error
    cases he
  | unregistered plan files manifest =>
    obtain ⟨f, -, -, he⟩ := manifest.exists_refused_of_error
    cases he

/-- The passes before a refused target are complete, and no other is begun. -/
theorem PassesAll.exists_refused {targets : List Target}
    (h : PassesAll components config targets s (.error .missingCustomElements) s') :
    ∃ before t after ps, targets = before ++ t :: after ∧
      t.validate config = .error .missingCustomElements ∧
      PassesAll components config before s (.ok ps) s' := by
  induction targets generalizing s with
  | nil => cases h
  | cons t rest ih =>
    cases h with
    | stopped pass =>
      obtain ⟨hv, rfl⟩ := pass.eq_of_refused
      exact ⟨[], t, rest, [], rfl, hv, .nil _⟩
    | failed pass later =>
      obtain ⟨before, t', after, ps, rfl, hv, hbefore⟩ := ih later
      exact ⟨t :: before, t', after, _, rfl, hv, .passed pass hbefore⟩

/-- The error of a manifest names its path. -/
theorem PassError.IsAbout.eq_of_invalidJson {path path' : String} {fault : Json.Fault}
    (h : PassError.IsAbout path (.invalidJson path' fault)) : path' = path := by
  cases h
  rfl

theorem Target.isAbsolute_rootManifest {rootDir : String} (hroot : Path.isRooted rootDir = true) :
    Path.IsAbsolute (rootManifest rootDir) := by
  apply Path.isAbsolute_normalize
  rw [List.foldl_cons, List.foldl_nil, String.append_assoc,
    Path.isRooted_append (Path.ne_empty_of_isRooted hroot), hroot]

/-- Under a rooted directory, no manifest is called like the list of targets. -/
theorem Target.Passes.ne_outputTargets {r : Except PassError Plan} {fault : Json.Fault}
    (h : t.Passes components config s r s') (hroot : Path.isRooted config.rootDir = true) :
    r ≠ .error (.invalidJson "outputTargets" fault) := by
  have hpath : ∀ {path : String}, Path.IsAbsolute path →
      ¬ PassError.IsAbout path (.invalidJson "outputTargets" fault) := by
    intro path ha he
    have hr := ha.isRooted
    rw [← he.eq_of_invalidJson] at hr
    exact absurd hr (by decide)
  rintro rfl
  cases h with
  | refused plan =>
    rcases cases_of_plan_error plan with hv | he | he
    · cases eq_of_validate hv
    · exact hpath (isAbsolute_rootManifest hroot) he
    · exact hpath (isAbsolute_libraryManifest hroot) he
  | broken plan files =>
    obtain ⟨f, -, -, he⟩ := files.exists_refused_of_error
    cases he
  | unregistered plan files manifest =>
    obtain ⟨f, -, -, he⟩ := manifest.exists_refused_of_error
    cases he

theorem PassesAll.ne_outputTargets {targets : List Target} {r : Except PassError (List Plan)}
    {fault : Json.Fault} (h : PassesAll components config targets s r s')
    (hroot : Path.isRooted config.rootDir = true) :
    r ≠ .error (.invalidJson "outputTargets" fault) := by
  induction h with
  | nil => exact nofun
  | stopped pass =>
    intro he
    exact pass.ne_outputTargets hroot (congrArg Except.error (Except.error.inj he))
  | failed pass later ih => exact ih
  | passed pass later ih => exact nofun

/-- A first target that is refused stops everything. -/
theorem PassesAll.eq_of_refused_head {rest : List Target} {r : Except PassError (List Plan)}
    (h : PassesAll components config (t :: rest) s r s')
    (hv : t.validate config = .error .missingCustomElements) :
    r = .error .missingCustomElements ∧ s' = s := by
  have hplan : t.plan s.read components config = .error .missingCustomElements := by
    unfold Target.plan
    rw [hv]
  have hstop : ∀ {r₁ : Except PassError Plan} {s₁ : Store}, t.Passes components config s r₁ s₁ →
      r₁ = .error .missingCustomElements ∧ s₁ = s := by
    intro r₁ s₁ pass
    cases pass with
    | refused plan => exact ⟨congrArg Except.error (Except.error.inj (plan.symm.trans hplan)), rfl⟩
    | broken plan files => cases plan.symm.trans hplan
    | unregistered plan files manifest => cases plan.symm.trans hplan
    | completed plan files manifest => cases plan.symm.trans hplan
  cases h with
  | stopped pass =>
    obtain ⟨he, hs⟩ := hstop pass
    exact ⟨congrArg Except.error (Except.error.inj he), hs⟩
  | failed pass later => cases (hstop pass).1
  | passed pass later => cases (hstop pass).1

variable {r : Except PassError (List Plan)}

/-- Targets that cannot be read stop a run before any write. So does a refused
target that no other comes before; one further on stops a run whose earlier
passes have been made. -/
theorem BuildConfig.Runs.configurationErrors (made : config.Runs components s r s') :
    (config.angularTargets? = none →
      r = .error (.invalidJson "outputTargets" .misshapen) ∧ s' = s) ∧
    (Path.isRooted config.rootDir = true → ∀ fault,
      r = .error (.invalidJson "outputTargets" fault) → config.angularTargets? = none ∧ s' = s) ∧
    (∀ t rest, config.angularTargets? = some (t :: rest) →
      t.validate config = .error .missingCustomElements →
        r = .error .missingCustomElements ∧ s' = s) ∧
    (r = .error .missingCustomElements → ∃ before t after ps,
      config.angularTargets? = some (before ++ t :: after) ∧
        t.validate config = .error .missingCustomElements ∧
        PassesAll components config before s (.ok ps) s' ∧ (s' = s ↔ before = [])) := by
  cases made with
  | misread unread =>
    refine ⟨fun _ => ⟨rfl, rfl⟩, fun _ _ _ => ⟨unread, rfl⟩, ?_, nofun⟩
    intro t rest read
    cases unread.symm.trans read
  | made read passes =>
    refine ⟨?_, ?_, ?_, ?_⟩
    · intro unread
      cases unread.symm.trans read
    · intro hroot fault he
      exact absurd he (passes.ne_outputTargets hroot)
    · intro t rest hr hv
      obtain rfl := Option.some.inj (read.symm.trans hr)
      exact passes.eq_of_refused_head hv
    · rintro rfl
      obtain ⟨before, t, after, ps, rfl, hv, hbefore⟩ := passes.exists_refused
      refine ⟨before, t, after, ps, read, hv, hbefore, ?_, ?_⟩
      · -- Each pass has written, so an unchanged log leaves room for none.
        rintro rfl
        have hlog := hbefore.length_log
        exact List.length_eq_zero_iff.mp (by omega)
      · rintro rfl
        cases hbefore
        rfl

/-- The options of an Angular output that writes below `dir`. -/
def BuildOutput.angular (dir : String) (options : Json.Members) : BuildOutput :=
  ⟨BuildConfig.angularKind,
    [("componentCorePackage", .str "core"), ("directivesProxyFile", .str (dir ++ "/proxies.ts"))] ++
      options⟩

/-- The options that need the definers of the elements. -/
def BuildOutput.fileEach : Json.Members :=
  [("outputType", .str "standalone"), ("individualComponentExport", .bool true)]

/-- A build without definers, whose second target needs them. -/
def BuildConfig.withoutDefiners : BuildConfig :=
  ⟨"/repo", [.angular "lazy" [], .angular "each" BuildOutput.fileEach]⟩

theorem BuildConfig.runs_withoutDefiners :
    withoutDefiners.Runs [] {} (.error .missingCustomElements)
      ((withoutDefiners.run []).run ({} : Store)).2 := by
  have hr : ((withoutDefiners.run []).run ({} : Store)).1 = .error .missingCustomElements := by
    decide +kernel
  have made : withoutDefiners.Runs [] {} _ _ := Runs.of_run {}
  rwa [hr] at made

theorem BuildConfig.Runs.configurationErrors_withoutDefiners :
    ∃ s', BuildConfig.withoutDefiners.Runs [] {} (.error .missingCustomElements) s' ∧
      ∃ before t after ps,
        BuildConfig.withoutDefiners.angularTargets? = some (before ++ t :: after) ∧
        t.validate BuildConfig.withoutDefiners = .error .missingCustomElements ∧
        PassesAll [] BuildConfig.withoutDefiners before {} (.ok ps) s' := by
  obtain ⟨-, -, -, hmissing⟩ := runs_withoutDefiners.configurationErrors
  obtain ⟨before, t, after, ps, hread, hv, hbefore, -⟩ := hmissing rfl
  exact ⟨_, runs_withoutDefiners, before, t, after, ps, hread, hv, hbefore⟩

/-- The files of the first target are there when the second is refused. -/
theorem BuildConfig.Runs.not_unchanged_of_missingCustomElements :
    ¬ ∀ (config : BuildConfig) (components : List Component) (s s' : Store),
      config.Runs components s (.error .missingCustomElements) s' →
        s'.log = s.log ∧ s'.files = s.files := by
  intro h
  have hlog : ((BuildConfig.withoutDefiners.run []).run ({} : Store)).2.log =
      ["/repo/lazy/proxies.ts", "/repo/lazy/angular-component-lib/utils.ts"] := by
    decide +kernel
  have hsame := (h _ _ _ _ runs_withoutDefiners).1
  rw [hlog] at hsame
  cases hsame

end Refusals

end ElementWrappers
