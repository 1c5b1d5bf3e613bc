import Mathlib
import ElementWrappers.Proofs.JsonText
import ElementWrappers.Proofs.ModuleLinks
import ElementWrappers.Proofs.Passes

/-!
# The export map over a history of passes

A pass writes the files before the manifest that names them, and the manifest
it writes has no other key below its subpath than those of the pass. So no key
below the subpath ever names a missing file, however many passes have failed:
`Store.NoDangling` holds in every store of a `History`.
-/

namespace ElementWrappers

/-! ## Owned keys -/

namespace ExportMap

/-- Whether a key lies below a subpath of the package. -/
def IsBelow (subpath key : String) : Prop := ("./" ++ subpath ++ "/").toList <+: key.toList

instance (subpath key : String) : Decidable (IsBelow subpath key) :=
  inferInstanceAs (Decidable (_ <+: _))

theorem owns_iff {m : ExportMap} {key : String} : m.owns key = true ↔ IsBelow m.subpath key :=
  List.isPrefixOf_iff_prefix

/-- Every owned key of a merged export map has its entry of the pass. -/
theorem exists_entry_of_mergeExports {m : ExportMap} {exports : Json.Members} {key : String}
    {value : Json} (h : Entries.get? (m.mergeExports exports) key = some value)
    (ho : IsBelow m.subpath key) : ∃ entry ∈ m.entries.entries, entry.2.toJson = value := by
  rcases Entries.get?_insertAll h with ⟨entry, he, -, hv⟩ | ⟨hn, hg⟩
  · exact ⟨entry, he, hv⟩
  · -- A key of the old map stays only if it is not owned or has an entry.
    have hm := List.of_mem_filter (Entries.mem_of_get? hg)
    rw [owns_iff.mpr ho, Bool.not_true, Bool.false_or] at hm
    exact absurd (Entries.has_iff_mem_keys.mp hm) hn

/-- The export map of a merged manifest. -/
theorem get?_exports_merge (m : ExportMap) (manifest : Json.Members) :
    Entries.get? (m.merge manifest) "exports" =
      some (.obj (m.mergeExports (membersOf (Entries.get? manifest "exports")))) := by
  rw [merge, Entries.get?_insert_of_ne _ _ (by decide), Entries.get?_insert_self]

end ExportMap

/-! ## What a store registers -/

namespace Store

variable {s s' : Store} {manifest subpath : String}

/-- The manifest at a path holds an object with this export map. -/
def HasExports (s : Store) (manifest : String) (exports : Json.Members) : Prop :=
  ∃ text members, s.files.get? manifest = some text ∧ Json.read text = .ok (.obj members) ∧
    Entries.get? members "exports" = some (.obj exports)

/-- The value of an export has a file to take its types from. -/
def HasTypes (s : Store) (libraryRoot : String) (value : Json) : Prop :=
  ∃ members types, value = .obj members ∧ Entries.get? members "types" = some (.str types) ∧
    s.has (Path.resolve libraryRoot types) = true

/-- No key of the export map lies below the subpath. -/
def IsUnregistered (s : Store) (manifest subpath : String) : Prop :=
  ∀ exports, s.HasExports manifest exports →
    ∀ key, Entries.has exports key = true → ¬ ExportMap.IsBelow subpath key

/-- Every key of the export map below the subpath names a file that exists. -/
def NoDangling (s : Store) (manifest subpath : String) : Prop :=
  ∀ exports, s.HasExports manifest exports →
    ∀ key value, Entries.get? exports key = some value → ExportMap.IsBelow subpath key →
      s.HasTypes (Path.directory manifest) value

theorem IsUnregistered.noDangling (h : s.IsUnregistered manifest subpath) :
    s.NoDangling manifest subpath := by
  intro exports he key value hk hb
  have hh : Entries.has exports key = true := by rw [Entries.has, hk]; rfl
  exact absurd hb (h exports he key hh)

/-- Registered files stay registered while the manifest stays and no file goes. -/
theorem NoDangling.of_grows (h : s.NoDangling manifest subpath)
    (hm : s'.files.get? manifest = s.files.get? manifest)
    (hg : ∀ path, s.has path = true → s'.has path = true) : s'.NoDangling manifest subpath := by
  rintro exports ⟨text, members, ht, hr⟩ key value hk hb
  rw [hm] at ht
  obtain ⟨entry, types, hv, htypes, hf⟩ := h exports ⟨text, members, ht, hr⟩ key value hk hb
  exact ⟨entry, types, hv, htypes, hg _ hf⟩

end Store

/-! ## One pass -/

namespace Target

/-- A target that keeps the exports below one subpath of one manifest. -/
structure Maintains (t : Target) (rootDir manifest subpath : String) : Prop where
  outputType : t.outputType = .standalone
  individualExport : t.individualExport = true
  manifest : (t.paths rootDir).libraryManifest = manifest
  subpath : ExportMap.trimSlashes t.exportSubpath = subpath

/-- The export map of a pass. -/
def exportMap (t : Target) (components : List Component) : ExportMap :=
  .ofComponents (Component.select t.excluded components) t.exportSubpath

/-- What a pass takes for granted: the manifest is none of the other files, and
what is printed of it reads back. -/
structure IsSafe (t : Target) (components : List Component) (config : BuildConfig) (s : Store) :
    Prop where
  separate : ∀ p, t.plan s.read components config = .ok p →
    ∀ f ∈ p.files, f.path ≠ (t.paths config.rootDir).libraryManifest
  readsBack : ∀ members, Manifest.ofRead (t.paths config.rootDir).libraryManifest
      (s.read (t.paths config.rootDir).libraryManifest) = .ok members →
    Json.read (Manifest.text ((t.exportMap components).merge members)) =
      .ok (.obj ((t.exportMap components).merge members))

variable {t : Target} {components : List Component} {config : BuildConfig}
  {manifest subpath : String} {s s' : Store} {r : Except PassError Plan}

theorem Maintains.isPerComponent {rootDir : String} (h : t.Maintains rootDir manifest subpath) :
    (OutputMode.ofTarget t).isPerComponent = true := by
  rw [OutputMode.ofTarget, h.outputType, h.individualExport]
  rfl

/-- The plan of such a target has the merged manifest, and a file for the types
of every entry. -/
theorem Maintains.of_plan {view : FileView} {p : Plan}
    (h : t.Maintains config.rootDir manifest subpath)
    (hp : t.plan view components config = .ok p) :
    (∃ members, Manifest.ofRead manifest (view manifest) = .ok members ∧
        p.manifest = some ⟨manifest, Manifest.text ((t.exportMap components).merge members)⟩) ∧
      ∀ entry ∈ (t.exportMap components).entries.entries, ∃ f ∈ p.files,
        f.path = Path.resolve (Path.directory manifest) entry.2.types := by
  obtain ⟨types, -, ha⟩ := assembly_of_plan hp
  have hmode : (t.assembly components config types).mode.isPerComponent = true := h.isPerComponent
  have hpath : (t.assembly components config types).paths.libraryManifest = manifest := h.manifest
  rcases Assembly.cases_of_ofAssembly ha with ⟨hnone, -⟩ | ⟨-, members, hread, rfl⟩
  · exact absurd hmode (Bool.eq_false_iff.mp hnone)
  · rw [hpath] at hread ⊢
    refine ⟨⟨members, hread, rfl⟩, ?_⟩
    intro entry he
    refine ⟨_, List.mem_append_right _ (List.mem_map_of_mem he), ?_⟩
    show Path.resolve (Path.directory (t.paths config.rootDir).libraryManifest) entry.2.types = _
    rw [h.manifest]

/-- No pass leaves a key that names a missing file, whatever fails in it. -/
theorem Passes.noDangling (hp : t.Passes components config s r s')
    (ht : t.Maintains config.rootDir manifest subpath) (hs : t.IsSafe components config s)
    (h : s.NoDangling manifest subpath) : s'.NoDangling manifest subpath := by
  have hsep : ∀ {p : Plan}, t.plan s.read components config = .ok p →
      ∀ f ∈ p.files, f.path = manifest → s.Refuses manifest := by
    intro p plan f hf hpath
    exact absurd (hpath.trans ht.manifest.symm) (hs.separate p plan f hf)
  cases hp with
  | refused plan => exact h
  | broken plan files =>
    exact h.of_grows (files.get?_of_untouched (hsep plan)) fun _ => files.has
  | @unregistered p e s₁ _ plan files manifestBatch =>
    have h₁ := h.of_grows (files.get?_of_untouched (hsep plan)) fun _ => files.has
    obtain ⟨⟨members, -, hm⟩, -⟩ := ht.of_plan plan
    rw [hm] at manifestBatch
    exact h₁.of_grows manifestBatch.get?_of_single_error fun _ => manifestBatch.has
  | @completed p s₁ _ plan files manifestBatch =>
    obtain ⟨⟨members, hread, hm⟩, htypes⟩ := ht.of_plan plan
    have hback := hs.readsBack members (by rw [ht.manifest]; exact hread)
    rw [hm] at manifestBatch
    rintro exports ⟨text, found, hfile, hfound, hexports⟩ key value hk hb
    -- The manifest is the printed one, so its exports are the merged ones.
    rw [manifestBatch.get?_of_single_ok] at hfile
    cases hfile
    rw [hback] at hfound
    cases hfound
    rw [ExportMap.get?_exports_merge] at hexports
    cases hexports
    have ho : ExportMap.IsBelow (t.exportMap components).subpath key := by
      show ExportMap.IsBelow (ExportMap.trimSlashes t.exportSubpath) key
      rwa [ht.subpath]
    obtain ⟨entry, he, rfl⟩ := ExportMap.exists_entry_of_mergeExports hk ho
    obtain ⟨f, hf, hpath⟩ := htypes entry he
    refine ⟨_, entry.2.types, rfl, rfl, ?_⟩
    rw [← hpath]
    exact manifestBatch.has (files.has_of_ok hf)

end Target

/-! ## Histories -/

/-- Passes in a row, each of a target that keeps the exports below the subpath,
with any components and any paths that refuse writes. -/
inductive History (manifest subpath : String) (s : Store) : Store → Prop
  | start : History manifest subpath s s
  | pass {s₁ s₂ : Store} {t : Target} {components : List Component} {config : BuildConfig}
      {r : Except PassError Plan} (refusing : List String) (earlier : History manifest subpath s s₁)
      (maintains : t.Maintains config.rootDir manifest subpath)
      (safe : t.IsSafe components config { s₁ with refusing })
      (made : t.Passes components config { s₁ with refusing } r s₂) : History manifest subpath s s₂

theorem History.noDangling {manifest subpath : String} {s s' : Store}
    (h : History manifest subpath s s') (hs : s.NoDangling manifest subpath) :
    s'.NoDangling manifest subpath := by
  induction h with
  | start => exact hs
  | pass refusing earlier maintains safe made ih => exact made.noDangling maintains safe ih

/-- From a store that has no key below the subpath, no history leads to one in
which such a key names a missing file. -/
theorem History.noDangling_of_isUnregistered {manifest subpath : String} {s s' : Store}
    (h : History manifest subpath s s') (hs : s.IsUnregistered manifest subpath) :
    s'.NoDangling manifest subpath :=
  h.noDangling hs.noDangling

theorem History.noDangling_of_isUnregistered_perComponent :
    ∃ s', History "/repo/angular/package.json" "components" {} s' ∧
      s'.NoDangling "/repo/angular/package.json" "components" := by
  have hm : Target.perComponent.Maintains Target.repository.rootDir "/repo/angular/package.json"
      "components" := ⟨rfl, rfl, by decide +kernel, by decide +kernel⟩
  have hs : Target.perComponent.IsSafe [Target.myInput] Target.repository
      { ({} : Store) with refusing := [] } := by
    refine ⟨?_, ?_⟩
    · intro p hp
      cases hp
      decide +kernel
    · intro members hread
      cases hread
      rw [Target.exportMap, Target.select_myInput]
      exact Json.read_pretty (by decide +kernel) (by decide +kernel)
  have h := History.pass [] .start hm hs (Target.passes_run _ _ _ _)
  refine ⟨_, h, h.noDangling_of_isUnregistered ?_⟩
  rintro exports ⟨text, members, ht, -⟩
  cases ht

end ElementWrappers
