import Mathlib
import ElementWrappers.Proofs.Batch

/-!
# Passes with concurrent writes

`Target.Passes` is the relation between the store before a pass, its result,
and the store after, for any order of the writes inside its two batches. The
script of a pass runs one of them.
-/

namespace ElementWrappers

/-! ## Commits -/

namespace Plan

/-- A plan is written, with a result and a store: its files are one batch and
the manifest another, made once the first has succeeded. -/
inductive Commits (p : Plan) (s : Store) : Except PassError Plan → Store → Prop
  | broken {e : PassError} {s' : Store} (files : Batch p.files s (.error e) s') :
      Commits p s (.error e) s'
  | unregistered {e : PassError} {s₁ s' : Store} (files : Batch p.files s (.ok ()) s₁)
      (manifest : Batch p.manifest.toList s₁ (.error e) s') : Commits p s (.error e) s'
  | completed {s₁ s' : Store} (files : Batch p.files s (.ok ()) s₁)
      (manifest : Batch p.manifest.toList s₁ (.ok ()) s') : Commits p s (.ok p) s'

/-- The script of a commit makes one. -/
theorem commits_run (p : Plan) (s : Store) :
    p.Commits s (p.commit.run s).1 (p.commit.run s).2 := by
  have hfiles := Batch.run_writeAll p.files s
  have hmanifest := Batch.run_writeAll p.manifest.toList ((Script.writeAll p.files).run s).2
  rw [Plan.commit, Script.run_andThen]
  cases hr : ((Script.writeAll p.files).run s).1 with
  | error e =>
    rw [hr] at hfiles
    exact .broken hfiles
  | ok _ =>
    rw [hr] at hfiles
    simp only
    rw [Script.run_andThen]
    cases hm : ((Script.writeAll p.manifest.toList).run ((Script.writeAll p.files).run s).2).1 with
    | error e =>
      rw [hm] at hmanifest
      exact .unregistered hfiles hmanifest
    | ok _ =>
      rw [hm] at hmanifest
      exact .completed hfiles hmanifest

end Plan

/-! ## What a plan depends on -/

/-- A view reads its files, and changes none. -/
theorem Script.run_view {σ : Type} [FileSystem σ] (paths : List String) (s : σ) :
    ((Script.view paths).run s).2 = s ∧
      ∀ path ∈ paths, ((Script.view paths).run s).1 path = FileSystem.read s path := by
  induction paths with
  | nil => exact ⟨rfl, fun _ h => nomatch h⟩
  | cons first rest ih =>
    obtain ⟨hs, hv⟩ := ih
    have hr : (Script.view (first :: rest)).run s =
        ((fun p => if p = first then FileSystem.read s first else ((Script.view rest).run s).1 p),
          ((Script.view rest).run s).2) := by
      show (((Script.view rest).andThen fun v => .done fun p =>
        if p = first then FileSystem.read s first else v p)).run s = _
      rw [Script.run_andThen]
      rfl
    rw [hr]
    refine ⟨hs, ?_⟩
    intro path hp
    by_cases h : path = first
    · rw [h]
      exact if_pos rfl
    · refine (if_neg h).trans ?_
      exact hv path ((List.mem_cons.mp hp).resolve_left h)

namespace Target

variable {t : Target} {components : List Component} {config : BuildConfig}

theorem readTypes_congr {view view' : FileView} {rootDir : String}
    (h : ∀ path ∈ t.dependencies rootDir, view path = view' path) :
    t.readTypes view rootDir = t.readTypes view' rootDir := by
  unfold readTypes
  cases hc : t.corePackage with
  | some core => rfl
  | none =>
    have hm : rootManifest rootDir ∈ t.dependencies rootDir := by
      rw [dependencies, hc]
      exact List.mem_append_left _ (List.mem_singleton_self _)
    simp only [h _ hm]

/-- The plan of a target reads no other files than its dependencies. -/
theorem plan_congr {view view' : FileView}
    (h : ∀ path ∈ t.dependencies config.rootDir, view path = view' path) :
    t.plan view components config = t.plan view' components config := by
  unfold Target.plan
  rw [readTypes_congr h]
  cases t.validate config with
  | error e => rfl
  | ok _ =>
    cases t.readTypes view' config.rootDir with
    | error e => rfl
    | ok types =>
      simp only [Plan.ofAssembly]
      split
      · rename_i hm
        have hd : (t.paths config.rootDir).libraryManifest ∈ t.dependencies config.rootDir := by
          rw [dependencies]
          refine List.mem_append_right _ ?_
          rw [if_pos (show (OutputMode.ofTarget t).isPerComponent = true from hm)]
          exact List.mem_singleton_self _
        rw [h _ hd]
      · rfl

/-! ## Passes -/

/-- A pass of a target ends with a result and a store: the files of the plan
are one batch and the manifest another, made once the first has succeeded. -/
inductive Passes (t : Target) (components : List Component) (config : BuildConfig) (s : Store) :
    Except PassError Plan → Store → Prop
  | refused {e : PassError} (plan : t.plan s.read components config = .error e) :
      Passes t components config s (.error e) s
  | broken {p : Plan} {e : PassError} {s' : Store}
      (plan : t.plan s.read components config = .ok p) (files : Batch p.files s (.error e) s') :
      Passes t components config s (.error e) s'
  | unregistered {p : Plan} {e : PassError} {s₁ s' : Store}
      (plan : t.plan s.read components config = .ok p) (files : Batch p.files s (.ok ()) s₁)
      (manifest : Batch p.manifest.toList s₁ (.error e) s') :
      Passes t components config s (.error e) s'
  | completed {p : Plan} {s₁ s' : Store} (plan : t.plan s.read components config = .ok p)
      (files : Batch p.files s (.ok ()) s₁) (manifest : Batch p.manifest.toList s₁ (.ok ()) s') :
      Passes t components config s (.ok p) s'

/-- What is done with a plan is done on the store that the plan was made for. -/
theorem run_planned (t : Target) (components : List Component) (config : BuildConfig)
    (commit : Plan → Script (Except PassError Plan)) (s : Store) :
    ((Script.view (t.dependencies config.rootDir)).andThen fun view =>
        match t.plan view components config with
        | .error e => .done (.error e)
        | .ok p => commit p).run s =
      match t.plan s.read components config with
      | .error e => (.error e, s)
      | .ok p => (commit p).run s := by
  obtain ⟨hs, hv⟩ := Script.run_view (t.dependencies config.rootDir) s
  have hplan : t.plan ((Script.view (t.dependencies config.rootDir)).run s).1 components config =
      t.plan s.read components config := plan_congr hv
  rw [Script.run_andThen, hs, hplan]
  cases t.plan s.read components config with
  | error e => rfl
  | ok p => rfl

theorem run_pass (t : Target) (components : List Component) (config : BuildConfig) (s : Store) :
    (t.pass components config).run s =
      match t.plan s.read components config with
      | .error e => (.error e, s)
      | .ok p => p.commit.run s :=
  run_planned t components config Plan.commit s

theorem passes_iff_commits {s s' : Store} {r : Except PassError Plan} {p : Plan}
    (hp : t.plan s.read components config = .ok p) :
    t.Passes components config s r s' ↔ p.Commits s r s' := by
  constructor
  · intro made
    cases made with
    | refused plan => cases plan.symm.trans hp
    | broken plan files =>
      obtain rfl := Except.ok.inj (plan.symm.trans hp)
      exact .broken files
    | unregistered plan files manifest =>
      obtain rfl := Except.ok.inj (plan.symm.trans hp)
      exact .unregistered files manifest
    | completed plan files manifest =>
      obtain rfl := Except.ok.inj (plan.symm.trans hp)
      exact .completed files manifest
  · intro written
    cases written with
    | broken files => exact .broken hp files
    | unregistered files manifest => exact .unregistered hp files manifest
    | completed files manifest => exact .completed hp files manifest

/-- The script of a pass makes a pass. -/
theorem passes_run (t : Target) (components : List Component) (config : BuildConfig) (s : Store) :
    t.Passes components config s ((t.pass components config).run s).1
      ((t.pass components config).run s).2 := by
  rw [run_pass]
  cases hp : t.plan s.read components config with
  | error e => exact .refused hp
  | ok p => exact (passes_iff_commits hp).mpr (p.commits_run s)

end Target

end ElementWrappers
