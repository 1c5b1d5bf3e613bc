import Mathlib
import ElementWrappers.Proofs.ModuleLinks
import ElementWrappers.Proofs.Passes

/-!
# Passes that fail

What a pass has done when it ends, for any order of the writes in its batches.
It succeeds exactly when there is a plan and no planned path refuses writes. A
pass that fails before its writes leaves the store as it is, log included. One
that fails at a write names a planned path that refuses it, and leaves the
manifest alone.
-/

namespace ElementWrappers

/-! ## Errors of a plan -/

/-- What can be wrong with the manifest at a path. -/
inductive PassError.IsAbout (path : String) : PassError → Prop
  | unreadable : IsAbout path (.unreadable path)
  | invalidJson (fault : Json.Fault) : IsAbout path (.invalidJson path fault)
  | invalidManifest : IsAbout path (.invalidManifest path)

theorem Manifest.isAbout_of_ofRead {path : String} {read : Except ReadFault String} {e : PassError}
    (h : Manifest.ofRead path read = .error e) : e.IsAbout path := by
  unfold Manifest.ofRead at h
  split at h
  · unfold Manifest.ofText at h
    split at h
    · cases h
    · split at h
      · cases h
        exact .invalidJson _
      · cases h
      · cases h
        exact .invalidManifest
  · cases h
  · cases h
    exact .unreadable

theorem Plan.isAbout_of_ofAssembly {a : Assembly} {view : FileView} {e : PassError}
    (h : Plan.ofAssembly a view = .error e) : e.IsAbout a.paths.libraryManifest := by
  unfold Plan.ofAssembly at h
  split at h
  · extract_lets file at h
    split at h
    · rename_i e hm
      obtain rfl := Except.error.inj h
      exact Manifest.isAbout_of_ofRead hm
    · cases h
  · cases h

namespace Target

variable {t : Target} {view : FileView} {components : List Component} {config : BuildConfig}
  {e : PassError}

theorem eq_of_validate (h : t.validate config = .error e) : e = .missingCustomElements := by
  unfold validate at h
  split at h
  · exact (Except.error.inj h).symm
  · cases h

theorem isAbout_of_readTypes {rootDir : String} (h : t.readTypes view rootDir = .error e) :
    e.IsAbout (rootManifest rootDir) := by
  unfold readTypes at h
  split at h
  · cases h
  · extract_lets file at h
    split at h
    · rename_i e hm
      obtain rfl := Except.error.inj h
      exact Manifest.isAbout_of_ofRead hm
    · split at h
      · obtain rfl := Except.error.inj h
        exact .invalidJson _
      · cases h

/-- There is no plan because the target is refused, or for one of the two
manifests that it reads. -/
theorem cases_of_plan_error (h : t.plan view components config = .error e) :
    t.validate config = .error e ∨ e.IsAbout (rootManifest config.rootDir) ∨
      e.IsAbout (t.paths config.rootDir).libraryManifest := by
  unfold Target.plan at h
  split at h
  · rename_i e hv
    obtain rfl := Except.error.inj h
    exact .inl hv
  · split at h
    · rename_i e ht
      obtain rfl := Except.error.inj h
      exact .inr (.inl (isAbout_of_readTypes ht))
    · exact .inr (.inr (Plan.isAbout_of_ofAssembly h))

/-- What stops a plan is never a failed write. -/
theorem plan_ne_unwritable (view : FileView) (path : String) :
    t.plan view components config ≠ .error (.unwritable path) := by
  intro h
  rcases cases_of_plan_error h with hv | he | he
  · cases eq_of_validate hv
  · cases he
  · cases he

end Target

/-! ## Untouched paths -/

namespace Store

/-- A path holds what it held before, and no write to it has been attempted. -/
def Untouched (s s' : Store) (path : String) : Prop :=
  s'.files.get? path = s.files.get? path ∧ ∃ attempts, s'.log = s.log ++ attempts ∧ path ∉ attempts

variable {s s₁ s' : Store} {path : String}

theorem Untouched.refl (s : Store) (path : String) : s.Untouched s path :=
  ⟨rfl, [], (List.append_nil _).symm, List.not_mem_nil⟩

theorem Untouched.trans (h : s.Untouched s₁ path) (h' : s₁.Untouched s' path) :
    s.Untouched s' path := by
  obtain ⟨hfile, attempts, hlog, hnot⟩ := h
  obtain ⟨hfile', attempts', hlog', hnot'⟩ := h'
  refine ⟨hfile'.trans hfile, attempts ++ attempts', ?_, ?_⟩
  · rw [hlog', hlog, List.append_assoc]
  · rw [List.mem_append]
    exact not_or.mpr ⟨hnot, hnot'⟩

end Store

/-- A batch touches no path but those of its files. -/
theorem Batch.untouched {files : List OutputFile} {s s' : Store} {r : Except PassError Unit}
    {path : String} (h : Batch files s r s') (hp : ∀ f ∈ files, f.path ≠ path) :
    s.Untouched s' path := by
  obtain ⟨attempts, ha, hlog⟩ := h.exists_attempts
  refine ⟨h.get?_of_untouched fun f hf he => absurd he (hp f hf), attempts, hlog, ?_⟩
  intro hm
  obtain ⟨f, hf, he⟩ := List.mem_map.mp (ha.subset hm)
  exact hp f hf he

namespace Plan

variable {p : Plan} {f m : OutputFile}

theorem mem_allFiles : f ∈ p.allFiles ↔ f ∈ p.files ∨ f ∈ p.manifest.toList := List.mem_append

theorem toList_of_mem_manifest (hm : m ∈ p.manifest) : p.manifest.toList = [m] := by
  rw [Option.mem_def.mp hm]
  rfl

end Plan

/-! ## Ends of a pass -/

namespace Target

variable {t : Target} {components : List Component} {config : BuildConfig} {s s' : Store}
  {r : Except PassError Plan} {p : Plan} {e : PassError} {path : String} {m : OutputFile}

/-- A pass succeeds exactly when there is a plan that can be written. -/
theorem Passes.ok_iff (made : t.Passes components config s r s') :
    r = .ok p ↔
      t.plan s.read components config = .ok p ∧ ∀ f ∈ p.allFiles, ¬ s.Refuses f.path := by
  -- A batch that fails has a file that cannot be written, so it ends no plan that can.
  have hstuck : ∀ {p' : Plan} {f : OutputFile}, t.plan s.read components config = .ok p' →
      f ∈ p'.allFiles → s.Refuses f.path →
      ¬ (t.plan s.read components config = .ok p ∧ ∀ f ∈ p.allFiles, ¬ s.Refuses f.path) := by
    rintro p' f plan hf hr ⟨hp, hw⟩
    obtain rfl := Except.ok.inj (plan.symm.trans hp)
    exact hw f hf hr
  cases made with
  | refused plan =>
    refine ⟨nofun, ?_⟩
    rintro ⟨hp, -⟩
    cases plan.symm.trans hp
  | broken plan files =>
    obtain ⟨f, hf, hr, -⟩ := files.exists_refused_of_error
    exact ⟨nofun, fun h => absurd h (hstuck plan (Plan.mem_allFiles.mpr (.inl hf)) hr)⟩
  | unregistered plan files manifest =>
    obtain ⟨f, hf, hr, -⟩ := manifest.exists_refused_of_error
    have hr := files.refuses_iff.mp hr
    exact ⟨nofun, fun h => absurd h (hstuck plan (Plan.mem_allFiles.mpr (.inr hf)) hr)⟩
  | completed plan files manifest =>
    constructor
    · intro h
      obtain rfl := Except.ok.inj h
      refine ⟨plan, fun f hf => ?_⟩
      rcases Plan.mem_allFiles.mp hf with hf | hf
      · exact files.writable_of_ok f hf
      · exact fun hr => manifest.writable_of_ok f hf (files.refuses_iff.mpr hr)
    · rintro ⟨hp, -⟩
      rw [← plan, hp]

/-- A pass changes nothing about what can be written. -/
theorem Passes.refuses_iff (made : t.Passes components config s r s') :
    s'.Refuses path ↔ s.Refuses path := by
  cases made with
  | refused plan => exact Iff.rfl
  | broken plan files => exact files.refuses_iff
  | unregistered plan files manifest => exact manifest.refuses_iff.trans files.refuses_iff
  | completed plan files manifest => exact manifest.refuses_iff.trans files.refuses_iff

/-- A pass that writes to files what they hold changes none of them. -/
theorem Passes.files_eq (made : t.Passes components config s r s')
    (hp : t.plan s.read components config = .ok p)
    (hf : ∀ f ∈ p.allFiles, s.files.get? f.path = some f.content) : s'.files = s.files := by
  have hfiles : ∀ f ∈ p.files, s.files.get? f.path = some f.content :=
    fun f hm => hf f (Plan.mem_allFiles.mpr (.inl hm))
  have hmanifest : ∀ {s₁ : Store}, s₁.files = s.files → ∀ f ∈ p.manifest.toList,
      s₁.files.get? f.path = some f.content := by
    intro s₁ he f hm
    rw [he]
    exact hf f (Plan.mem_allFiles.mpr (.inr hm))
  cases made with
  | refused plan => rfl
  | broken plan files =>
    obtain rfl := Except.ok.inj (plan.symm.trans hp)
    exact files.files_eq hfiles
  | unregistered plan files manifest =>
    obtain rfl := Except.ok.inj (plan.symm.trans hp)
    have hs := files.files_eq hfiles
    exact (manifest.files_eq (hmanifest hs)).trans hs
  | completed plan files manifest =>
    obtain rfl := Except.ok.inj (plan.symm.trans hp)
    have hs := files.files_eq hfiles
    exact (manifest.files_eq (hmanifest hs)).trans hs

/-- A pass that fails, though no write does, has done nothing. -/
theorem Passes.eq_of_error (made : t.Passes components config s (.error e) s')
    (he : ∀ path, e ≠ .unwritable path) : s' = s := by
  cases made with
  | refused plan => rfl
  | broken plan files =>
    obtain ⟨f, -, -, rfl⟩ := files.exists_refused_of_error
    exact absurd rfl (he _)
  | unregistered plan files manifest =>
    obtain ⟨f, -, -, rfl⟩ := manifest.exists_refused_of_error
    exact absurd rfl (he _)

/-- A failed write is that of a planned path. -/
theorem Passes.refused_of_unwritable
    (made : t.Passes components config s (.error (.unwritable path)) s') :
    s.Refuses path ∧
      ∃ p, t.plan s.read components config = .ok p ∧ ∃ f ∈ p.allFiles, f.path = path := by
  cases made with
  | refused plan => exact absurd plan (plan_ne_unwritable _ _)
  | broken plan files =>
    obtain ⟨f, hf, hr, he⟩ := files.exists_refused_of_error
    cases he
    exact ⟨hr, _, plan, f, Plan.mem_allFiles.mpr (.inl hf), rfl⟩
  | unregistered plan files manifest =>
    obtain ⟨f, hf, hr, he⟩ := manifest.exists_refused_of_error
    cases he
    exact ⟨files.refuses_iff.mp hr, _, plan, f, Plan.mem_allFiles.mpr (.inr hf), rfl⟩

/-- The manifest of a failed pass holds what it held before. -/
theorem Passes.get?_manifest (made : t.Passes components config s (.error e) s')
    (hp : t.plan s.read components config = .ok p) (hm : m ∈ p.manifest)
    (separate : ∀ f ∈ p.files, f.path ≠ m.path) :
    s'.files.get? m.path = s.files.get? m.path := by
  cases made with
  | refused plan => rfl
  | broken plan files =>
    obtain rfl := Except.ok.inj (plan.symm.trans hp)
    exact (files.untouched separate).1
  | unregistered plan files manifest =>
    obtain rfl := Except.ok.inj (plan.symm.trans hp)
    rw [Plan.toList_of_mem_manifest hm] at manifest
    exact manifest.get?_of_single_error.trans (files.untouched separate).1

/-- The manifest is not written to when another file cannot be. -/
theorem Passes.untouched_manifest (made : t.Passes components config s r s')
    (hp : t.plan s.read components config = .ok p) (separate : ∀ f ∈ p.files, f.path ≠ path)
    (hr : ∃ f ∈ p.files, s.Refuses f.path) : s.Untouched s' path := by
  obtain ⟨f, hf, hr⟩ := hr
  cases made with
  | refused plan => exact .refl s path
  | broken plan files =>
    obtain rfl := Except.ok.inj (plan.symm.trans hp)
    exact files.untouched separate
  | unregistered plan files manifest =>
    obtain rfl := Except.ok.inj (plan.symm.trans hp)
    exact absurd hr (files.writable_of_ok f hf)
  | completed plan files manifest =>
    obtain rfl := Except.ok.inj (plan.symm.trans hp)
    exact absurd hr (files.writable_of_ok f hf)

/-- A pass touches no path outside its plan. -/
theorem Passes.untouched (made : t.Passes components config s r s')
    (hp : ∀ p, t.plan s.read components config = .ok p → ∀ f ∈ p.allFiles, f.path ≠ path) :
    s.Untouched s' path := by
  have hfiles : ∀ {p : Plan}, t.plan s.read components config = .ok p →
      ∀ f ∈ p.files, f.path ≠ path := fun plan f hf => hp _ plan f (Plan.mem_allFiles.mpr (.inl hf))
  have hmanifest : ∀ {p : Plan}, t.plan s.read components config = .ok p →
      ∀ f ∈ p.manifest.toList, f.path ≠ path :=
    fun plan f hf => hp _ plan f (Plan.mem_allFiles.mpr (.inr hf))
  cases made with
  | refused plan => exact .refl s path
  | broken plan files => exact files.untouched (hfiles plan)
  | unregistered plan files manifest =>
    exact (files.untouched (hfiles plan)).trans (manifest.untouched (hmanifest plan))
  | completed plan files manifest =>
    exact (files.untouched (hfiles plan)).trans (manifest.untouched (hmanifest plan))

/-- A pass succeeds exactly when all of its plan can be written. One that fails
elsewhere has done nothing; one that fails at a write names a planned path that
refuses it and leaves the manifest alone, without an attempt if another file was
at fault. No path outside the plan is touched. -/
theorem Passes.failsSafely (made : t.Passes components config s r s') :
    (∀ p, r = .ok p ↔
      t.plan s.read components config = .ok p ∧ ∀ f ∈ p.allFiles, ¬ s.Refuses f.path) ∧
    (∀ e, r = .error e → (∀ path, e ≠ .unwritable path) → s' = s) ∧
    (∀ path, r = .error (.unwritable path) → s.Refuses path ∧
      ∃ p, t.plan s.read components config = .ok p ∧ (∃ f ∈ p.allFiles, f.path = path) ∧
        ∀ m ∈ p.manifest, (∀ f ∈ p.files, f.path ≠ m.path) →
          s'.files.get? m.path = s.files.get? m.path ∧
            ((∃ f ∈ p.files, s.Refuses f.path) → s.Untouched s' m.path)) ∧
    ∀ path, (∀ p, t.plan s.read components config = .ok p → ∀ f ∈ p.allFiles, f.path ≠ path) →
      s.Untouched s' path := by
  refine ⟨fun p => made.ok_iff, ?_, ?_, fun path => made.untouched⟩
  · rintro e rfl he
    exact made.eq_of_error he
  · rintro path rfl
    obtain ⟨hr, p, hp, hf⟩ := made.refused_of_unwritable
    refine ⟨hr, p, hp, hf, fun m hm separate => ⟨made.get?_manifest hp hm separate, ?_⟩⟩
    exact made.untouched_manifest hp separate

/-- A store in which the wrapper of `my-input` cannot be written. -/
def blocked : Store := { refusing := ["/repo/angular/src/components/my-input.ts"] }

theorem Passes.failsSafely_blocked :
    ∃ s', perComponent.Passes [myInput] repository blocked
        (.error (.unwritable "/repo/angular/src/components/my-input.ts")) s' ∧
      blocked.Untouched s' "/repo/angular/package.json" := by
  have hr : ((perComponent.pass [myInput] repository).run blocked).1 =
      .error (.unwritable "/repo/angular/src/components/my-input.ts") := by decide +kernel
  have made := passes_run perComponent [myInput] repository blocked
  rw [hr] at made
  obtain ⟨-, -, hwrite, -⟩ := made.failsSafely
  obtain ⟨-, p, hp, -, hmanifest⟩ := hwrite _ rfl
  cases hp
  refine ⟨_, made, (hmanifest _ rfl ?_).2 ?_⟩
  · decide +kernel
  · show ∃ f ∈ Plan.files _, f.path ∈ blocked.refusing
    decide +kernel

end Target

end ElementWrappers
