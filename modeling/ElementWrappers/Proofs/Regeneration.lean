import Mathlib
import ElementWrappers.Proofs.ExportForms
import ElementWrappers.Proofs.PlannedPaths

/-!
# Passes made again

A pass that is made again reads the manifest that it wrote, and plans what it
planned: a merged export map is a fixed point of the merge, and the merge
changes nothing that types are read from. So the second pass writes to each
file what it holds: `Passes.regenerates`.
-/

namespace ElementWrappers

/-! ## Merging twice -/

namespace ExportMap

variable (m : ExportMap)

theorem mergeExports_mergeExports (exports : Json.Members) :
    m.mergeExports (m.mergeExports exports) = m.mergeExports exports := by
  -- No key of a merged map is owned without an entry, so none is left out.
  have hall : ((m.mergeExports exports).filter fun member =>
      !m.owns member.1 || m.entries.entries.has member.1) = m.mergeExports exports := by
    rw [List.filter_eq_self]
    intro member hm
    cases ho : m.owns member.1 with
    | false => rfl
    | true =>
      have hk : member.1 ∈ (m.mergeExports exports).keys := List.mem_map_of_mem hm
      rcases mem_keys_mergeExports.mp hk with hk | ⟨-, hn⟩
      · exact Entries.has_iff_mem_keys.mpr hk
      · exact absurd (owns_iff.mp ho) hn
  have hmerge : ∀ exports, m.mergeExports exports =
      Entries.insertAll (exports.filter fun member =>
        !m.owns member.1 || m.entries.entries.has member.1) ExportEntry.toJson
        m.entries.entries := fun _ => rfl
  rw [hmerge (m.mergeExports exports), hall, hmerge exports]
  exact Entries.insertAll_insertAll m.entries.distinct

/-- The second merge replaces each value by the same value in its place. -/
theorem merge_merge (manifest : Json.Members) : m.merge (m.merge manifest) = m.merge manifest := by
  have hexports := get?_exports_merge m manifest
  have hside : Entries.get? (m.merge manifest) "sideEffects" = some (.bool false) :=
    Entries.get?_insert_self _ _ _
  have hmembers : m.mergeExports (membersOf (Entries.get? (m.merge manifest) "exports")) =
      m.mergeExports (membersOf (Entries.get? manifest "exports")) := by
    rw [hexports]
    exact mergeExports_mergeExports m _
  rw [merge.eq_def m (m.merge manifest)]
  simp only [hmembers]
  rw [Entries.insert_of_get? hexports, Entries.insert_of_get? hside]

end ExportMap

/-- Types are read from one member of a manifest. -/
theorem packageTypes?_insert (manifest : Json.Members) {key : String} (value : Json)
    (h : key ≠ "types") :
    packageTypes? (.obj (Entries.insert manifest key value)) = packageTypes? (.obj manifest) := by
  have hkeys : Json.unrepeated ["types"] (Entries.insert manifest key value) =
      Json.unrepeated ["types"] manifest := by
    unfold Json.unrepeated
    simp only [List.all_cons, List.all_nil, Entries.filter_keys_insert_of_ne manifest value h]
  have hget := Entries.get?_insert_of_ne manifest value h.symm
  unfold packageTypes?
  simp only [Json.record?, hkeys]
  cases Json.unrepeated ["types"] manifest with
  | false => rfl
  | true =>
    show Json.Fields.getD _ _ _ _ = Json.Fields.getD _ _ _ _
    unfold Json.Fields.getD
    rw [hget]

theorem packageTypes?_merge (m : ExportMap) (manifest : Json.Members) :
    packageTypes? (.obj (m.merge manifest)) = packageTypes? (.obj manifest) := by
  unfold ExportMap.merge
  rw [packageTypes?_insert _ _ (by decide), packageTypes?_insert _ _ (by decide)]

/-! ## Reading a printed manifest -/

theorem Text.isBlank_of_trim_eq_nil {cs : List Char} (h : trim cs = []) :
    ∀ c ∈ cs, isBlank c = true := by
  obtain ⟨gap, gap', hg, hg', he⟩ := exists_trim_append cs
  rw [he, h]
  exact List.forall_mem_append.mpr ⟨hg, hg'⟩

/-- What a file of a printed manifest holds. The text is never blank, so it is read. -/
theorem Manifest.ofRead_text {path : String} {members : Json.Members}
    (h : Json.read (text members) = .ok (.obj members)) :
    ofRead path (.ok (text members)) = .ok members := by
  have hbrace : '\x7b' ∈ (text members).toList := by
    cases members with
    | nil => simp [text, Json.pretty, Json.print]
    | cons member rest => simp [text, Json.pretty, Json.print]
  have hfull : (Text.trim (text members).toList).isEmpty = false := by
    rw [List.isEmpty_eq_false_iff]
    intro hblank
    exact absurd (Text.isBlank_of_trim_eq_nil hblank _ hbrace) (by decide)
  show ofText path (text members) = _
  unfold ofText
  simp only [hfull, h, Bool.false_eq_true, ↓reduceIte]

/-! ## The plan made again -/

namespace Plan

variable {a : Assembly} {view view' : FileView} {p : Plan}

/-- A view that shows the merged manifest leads to the plan that has it. -/
theorem ofAssembly_of_merged (h : ofAssembly a view = .ok p)
    (hm : ∀ members, a.mode.isPerComponent = true →
      Manifest.ofRead a.paths.libraryManifest (view a.paths.libraryManifest) = .ok members →
        Manifest.ofRead a.paths.libraryManifest (view' a.paths.libraryManifest) =
          .ok (a.exportMap.merge members)) :
    ofAssembly a view' = .ok p := by
  unfold ofAssembly
  rcases Assembly.cases_of_ofAssembly h with ⟨hmode, rfl⟩ | ⟨hmode, members, hread, rfl⟩
  · rw [hmode]
    rfl
  · simp only [hmode, hm members hmode hread, ExportMap.merge_merge, ↓reduceIte]

end Plan

namespace Target

variable {t : Target} {components : List Component} {config : BuildConfig} {s s₁ : Store}
  {p : Plan}

/-- What is printed of the manifest of a pass, if it has one, reads back. -/
def ReadsBack (t : Target) (components : List Component) (config : BuildConfig) (view : FileView) :
    Prop :=
  (OutputMode.ofTarget t).isPerComponent = true → ∀ members,
    Manifest.ofRead (t.paths config.rootDir).libraryManifest
        (view (t.paths config.rootDir).libraryManifest) = .ok members →
      Json.read (Manifest.text ((t.exportMap components).merge members)) =
        .ok (.obj ((t.exportMap components).merge members))

/-- After a pass its manifest is the merged one. -/
theorem Passes.ofRead_manifest (made : t.Passes components config s (.ok p) s₁)
    (distinct : (p.allFiles.map OutputFile.path).Nodup)
    (readsBack : t.ReadsBack components config s.read) {members : Json.Members}
    (hmode : (OutputMode.ofTarget t).isPerComponent = true)
    (hread : Manifest.ofRead (t.paths config.rootDir).libraryManifest
      (s.read (t.paths config.rootDir).libraryManifest) = .ok members) :
    Manifest.ofRead (t.paths config.rootDir).libraryManifest
      (s₁.read (t.paths config.rootDir).libraryManifest) =
        .ok ((t.exportMap components).merge members) := by
  obtain ⟨types, -, ha⟩ := assembly_of_plan (made.ok_iff.mp rfl).1
  rcases Assembly.cases_of_ofAssembly ha with ⟨hnone, -⟩ | ⟨-, found, hfound, rfl⟩
  · exact absurd hmode (Bool.eq_false_iff.mp hnone)
  · obtain rfl : found = members := Except.ok.inj (hfound.symm.trans hread)
    have hfile := made.get?_of_ok distinct (Plan.mem_allFiles.mpr (.inr List.mem_cons_self))
    have htext : s₁.read (t.paths config.rootDir).libraryManifest =
        .ok (Manifest.text ((t.exportMap components).merge found)) := by
      unfold Store.read
      rw [show s₁.files.get? (t.paths config.rootDir).libraryManifest = _ from hfile]
      rfl
    rw [htext]
    exact Manifest.ofRead_text (readsBack hmode found hread)

/-- A pass changes nothing about the types, unless it writes another file where
they are read from. -/
theorem Passes.readTypes_eq (made : t.Passes components config s (.ok p) s₁)
    (distinct : (p.allFiles.map OutputFile.path).Nodup)
    (root : ∀ f ∈ p.files, f.path ≠ rootManifest config.rootDir)
    (readsBack : t.ReadsBack components config s.read) :
    t.readTypes s₁.read config.rootDir = t.readTypes s.read config.rootDir := by
  unfold readTypes
  cases t.corePackage with
  | some core => rfl
  | none =>
    have plan := (made.ok_iff.mp rfl).1
    by_cases hm : ∃ m ∈ p.manifest, m.path = rootManifest config.rootDir
    · -- The types stand in the manifest of the pass.
      obtain ⟨types, -, ha⟩ := assembly_of_plan plan
      obtain ⟨m, hm, hpath⟩ := hm
      rcases Assembly.cases_of_ofAssembly ha with ⟨-, rfl⟩ | ⟨hmode, members, hread, rfl⟩
      · cases hm
      · cases hm
        have hlibrary : (t.paths config.rootDir).libraryManifest = rootManifest config.rootDir :=
          hpath
        have hback := made.ofRead_manifest distinct readsBack hmode hread
        have hread : Manifest.ofRead (t.paths config.rootDir).libraryManifest
            (s.read (t.paths config.rootDir).libraryManifest) = .ok members := hread
        rw [hlibrary] at hback hread
        simp only [hback, hread, packageTypes?_merge]
    · have hfile : s₁.files.get? (rootManifest config.rootDir) =
          s.files.get? (rootManifest config.rootDir) := by
        refine (made.untouched fun q hq f hf => ?_).1
        obtain rfl := Except.ok.inj (plan.symm.trans hq)
        rcases Plan.mem_allFiles.mp hf with hf | hf
        · exact root f hf
        · exact fun hp => hm ⟨f, Option.mem_toList.mp hf, hp⟩
      have hread : s₁.read (rootManifest config.rootDir) = s.read (rootManifest config.rootDir) := by
        unfold Store.read
        rw [hfile]
      simp only [hread]

/-- After a pass there is the same plan again. -/
theorem Passes.plan_eq (made : t.Passes components config s (.ok p) s₁)
    (distinct : (p.allFiles.map OutputFile.path).Nodup)
    (root : ∀ f ∈ p.files, f.path ≠ rootManifest config.rootDir)
    (readsBack : t.ReadsBack components config s.read) :
    t.plan s₁.read components config = .ok p := by
  have plan := (made.ok_iff.mp rfl).1
  unfold Target.plan at plan ⊢
  rw [made.readTypes_eq distinct root readsBack]
  cases hv : t.validate config with
  | error e =>
    rw [hv] at plan
    cases plan
  | ok _ =>
    cases ht : t.readTypes s.read config.rootDir with
    | error e =>
      rw [hv, ht] at plan
      cases plan
    | ok types =>
      rw [hv, ht] at plan
      exact Plan.ofAssembly_of_merged plan fun _ => made.ofRead_manifest distinct readsBack

/-- A pass that succeeds can be made again: it succeeds with the same plan, and
every file stays as it is. -/
theorem Passes.regenerates (made : t.Passes components config s (.ok p) s₁)
    (distinct : (p.allFiles.map OutputFile.path).Nodup)
    (root : ∀ f ∈ p.files, f.path ≠ rootManifest config.rootDir)
    (readsBack : t.ReadsBack components config s.read) :
    (∃ s₂, t.Passes components config s₁ (.ok p) s₂) ∧
      ∀ r s₂, t.Passes components config s₁ r s₂ → r = .ok p ∧ s₂.files = s₁.files := by
  have hplan := made.plan_eq distinct root readsBack
  have hwritable : ∀ f ∈ p.allFiles, ¬ s₁.Refuses f.path :=
    fun f hf hr => (made.ok_iff.mp rfl).2 f hf (made.refuses_iff.mp hr)
  have hresult : ∀ {r s₂}, t.Passes components config s₁ r s₂ → r = .ok p :=
    fun again => again.ok_iff.mpr ⟨hplan, hwritable⟩
  refine ⟨⟨((t.pass components config).run s₁).2, ?_⟩, fun r s₂ again => ⟨hresult again, ?_⟩⟩
  · have again := passes_run t components config s₁
    rwa [hresult again] at again
  · exact again.files_eq hplan fun f => made.get?_of_ok distinct

/-- A target that keeps the export map in the manifest it reads types from. -/
def rooted : Target :=
  { perComponent with corePackage := none, libraryManifest := some "package.json" }

theorem Passes.regenerates_rooted :
    ∃ p s₁ s₂, rooted.Passes [myInput] repository {} (.ok p) s₁ ∧
      rooted.Passes [myInput] repository s₁ (.ok p) s₂ ∧ s₂.files = s₁.files := by
  obtain ⟨p, hp⟩ : ∃ p, rooted.plan ({} : Store).read [myInput] repository = .ok p := ⟨_, rfl⟩
  have made := passes_run rooted [myInput] repository {}
  have hr : ((rooted.pass [myInput] repository).run ({} : Store)).1 = .ok p := by
    refine made.ok_iff.mpr ⟨hp, fun f _ hf => ?_⟩
    cases hf
  rw [hr] at made
  have distinct : (p.allFiles.map OutputFile.path).Nodup := by
    cases hp
    decide +kernel
  have root : ∀ f ∈ p.files, f.path ≠ rootManifest repository.rootDir := by
    cases hp
    decide +kernel
  have readsBack : rooted.ReadsBack [myInput] repository ({} : Store).read := by
    intro _ members hread
    cases hread
    rw [exportMap, show rooted.excluded = perComponent.excluded from rfl, select_myInput]
    exact Json.read_pretty (by decide +kernel) (by decide +kernel)
  obtain ⟨⟨s₂, again⟩, hall⟩ := made.regenerates distinct root readsBack
  exact ⟨p, _, s₂, made, again, (hall _ _ again).2⟩

end Target

end ElementWrappers
