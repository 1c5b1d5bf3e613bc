import Mathlib
import ElementWrappers.Proofs.ModuleLinks
import ElementWrappers.Proofs.Passes

/-!
# Orders of the writes of a plan

The files of a plan are written in any order, the manifest after them. Where no
two have one path and none refuses writes, the order does not show in the files:
`Plan.writtenInAnyOrder`.
-/

namespace ElementWrappers

namespace Plan

variable {p : Plan} {s s' : Store} {r : Except PassError Plan} {order : List OutputFile}

/-- The paths of a plan hold its texts and all other paths what they held. Each
path of the plan has been logged once, that of the manifest last. -/
structure IsWritten (p : Plan) (s s' : Store) : Prop where
  planned : ∀ f ∈ p.allFiles, s'.files.get? f.path = some f.content
  others : ∀ path, (∀ f ∈ p.allFiles, f.path ≠ path) →
    s'.files.get? path = s.files.get? path
  log : ∃ paths : List String, paths.Perm (p.files.map OutputFile.path) ∧
    s'.log = s.log ++ (paths ++ p.manifest.toList.map OutputFile.path)

/-- A commit makes the writes of its first batch in some order. -/
theorem Commits.exists_order (written : p.Commits s r s')
    (writable : ∀ f ∈ p.allFiles, ¬ s.Refuses f.path) :
    r = .ok p ∧ ∃ order : List OutputFile, order.Perm p.files ∧
      s' = s.attempt (order ++ p.manifest.toList) := by
  have hfiles : ∀ f ∈ p.files, ¬ s.Refuses f.path :=
    fun f hf => writable f (List.mem_append_left _ hf)
  have hmanifest : ∀ f ∈ p.manifest.toList, ¬ s.Refuses f.path :=
    fun f hf => writable f (List.mem_append_right _ hf)
  cases written with
  | broken files => cases files.eq_ok_of_writable hfiles
  | unregistered files manifest =>
    have hstill := fun f hf hr => hmanifest f hf (files.refuses_iff.mp hr)
    cases manifest.eq_ok_of_writable hstill
  | completed files manifest =>
    obtain ⟨order, all, rfl⟩ := files.exists_order_of_ok
    exact ⟨rfl, order, all, by rw [manifest.eq_of_toList, Store.attempt_append]⟩

/-- Every order of the first batch is that of a commit. -/
theorem commits_attempt (all : order.Perm p.files)
    (writable : ∀ f ∈ p.allFiles, ¬ s.Refuses f.path) :
    p.Commits s (.ok p) (s.attempt (order ++ p.manifest.toList)) := by
  rw [Store.attempt_append]
  refine .completed (.complete order all fun f hf => ?_) (.complete _ (.refl _) fun f hf hr => ?_)
  · exact writable f (List.mem_append_left _ (all.subset hf))
  · exact writable f (List.mem_append_right _ hf) ((Store.refuses_attempt order).mp hr)

/-- Writes to different paths commute: what they leave does not depend on their
order. -/
theorem isWritten_attempt (apart : (p.allFiles.map OutputFile.path).Nodup)
    (writable : ∀ f ∈ p.allFiles, ¬ s.Refuses f.path) (all : order.Perm p.files) :
    p.IsWritten s (s.attempt (order ++ p.manifest.toList)) := by
  have hall : (order ++ p.manifest.toList).Perm p.allFiles := all.append_right _
  have hdistinct : ((order ++ p.manifest.toList).map OutputFile.path).Nodup :=
    (hall.map _).nodup_iff.mpr apart
  have hwritable : ∀ f ∈ order ++ p.manifest.toList, ¬ s.Refuses f.path :=
    fun f hf => writable f (hall.subset hf)
  constructor
  · exact fun f hf => Store.get?_attempt_of_mem hdistinct hwritable (hall.symm.subset hf)
  · intro path hp
    exact Store.get?_attempt_of_untouched fun f hf he => absurd he (hp f (hall.subset hf))
  · refine ⟨order.map OutputFile.path, all.map _, ?_⟩
    rw [Store.log_attempt, List.map_append]

/-- A plan with each path once that can be written succeeds in every order of
the writes of its first batch, and every commit and every pass of it is one of
these. All of them leave the planned texts, and nothing else. -/
theorem writtenInAnyOrder (apart : (p.allFiles.map OutputFile.path).Nodup)
    (writable : ∀ f ∈ p.allFiles, ¬ s.Refuses f.path) :
    (∀ order : List OutputFile, order.Perm p.files →
      p.Commits s (.ok p) (s.attempt (order ++ p.manifest.toList)) ∧
        p.IsWritten s (s.attempt (order ++ p.manifest.toList))) ∧
    (∀ r s', p.Commits s r s' → r = .ok p ∧ p.IsWritten s s') ∧
    ∀ (t : Target) components config r s', t.plan s.read components config = .ok p →
      t.Passes components config s r s' → r = .ok p ∧ p.IsWritten s s' := by
  have hcommits : ∀ r s', p.Commits s r s' → r = .ok p ∧ p.IsWritten s s' := by
    intro r s' written
    obtain ⟨hr, order, all, rfl⟩ := written.exists_order writable
    exact ⟨hr, isWritten_attempt apart writable all⟩
  refine ⟨fun order all => ⟨?_, ?_⟩, hcommits, ?_⟩
  · exact commits_attempt all writable
  · exact isWritten_attempt apart writable all
  · intro t components config r s' hp made
    exact hcommits r s' ((Target.passes_iff_commits hp).mp made)

/-- A store with an old proxy file, and another file that refuses writes. -/
def outdated : Store where
  files := [("/repo/angular/src/proxies.ts", "export \x7b \x7d;"), ("/repo/README.md", "Inputs")]
  refusing := ["/repo/README.md"]

theorem writtenInAnyOrder_reversed : ∃ p,
    Target.perComponent.plan outdated.read [Target.myInput] Target.repository = .ok p ∧
      p.manifest.isSome = true ∧ 2 ≤ p.files.length ∧
      p.Commits outdated (.ok p) (outdated.attempt (p.files.reverse ++ p.manifest.toList)) ∧
      p.IsWritten outdated (outdated.attempt (p.files.reverse ++ p.manifest.toList)) := by
  obtain ⟨p, hp⟩ : ∃ p, Target.perComponent.plan outdated.read [Target.myInput]
      Target.repository = .ok p := ⟨_, rfl⟩
  have hpaths : p.allFiles.map OutputFile.path =
      ["/repo/angular/src/proxies.ts", "/repo/angular/src/components/my-input.ts",
        "/repo/angular/src/components/index.ts", "/repo/angular/src/components/definitions.ts",
        "/repo/angular/src/angular-component-lib/utils.ts", "/repo/angular/lists/array.ts",
        "/repo/angular/src/text-value-accessor.ts", "/repo/angular/src/value-accessor.ts",
        "/repo/angular/components/my-input/index.d.ts", "/repo/angular/package.json"] := by
    cases hp
    decide +kernel
  have apart : (p.allFiles.map OutputFile.path).Nodup := by
    rw [hpaths]
    decide +kernel
  have writable : ∀ f ∈ p.allFiles, ¬ outdated.Refuses f.path := by
    have hfree : ∀ path ∈ p.allFiles.map OutputFile.path, ¬ outdated.Refuses path := by
      rw [hpaths]
      unfold Store.Refuses
      decide +kernel
    exact fun f hf => hfree f.path (List.mem_map_of_mem hf)
  obtain ⟨hcommits, hwritten⟩ := (writtenInAnyOrder apart writable).1 p.files.reverse
    (List.reverse_perm _)
  refine ⟨p, hp, ?_, ?_, hcommits, hwritten⟩
  · cases hp
    rfl
  · cases hp
    decide +kernel

end Plan

end ElementWrappers
