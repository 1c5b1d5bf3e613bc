import Mathlib
import ElementWrappers.Proofs.ClassNames
import ElementWrappers.Proofs.ComponentOrder
import ElementWrappers.Proofs.SharedManifest

/-!
# Artifacts of wrappers in their own files

A pass with a file for each component says eight times which components there
are: in its units, the wrapper files, the barrel, the definitions, the directives
array, the declarations and the keys of the export map. Some are made from
wrappers, some from components, some from a table that is merged into an old
manifest. `describes_of_plan`: each has exactly one item for each tag of the
pass, and no other.
-/

namespace ElementWrappers

/-! ## Texts by tags -/

namespace Artifact

/-- The line of the barrel for a tag. -/
def exportLine (tag : String) : String :=
  "export \x7b " ++ Naming.className tag ++ " \x7d from './" ++ tag ++ "';"

/-- The barrel of the wrapper files. -/
def barrel (tags : List String) : String :=
  "\n".intercalate ("/* auto-generated angular component exports */" :: tags.map exportLine) ++ "\n"

/-- The definer of a tag under the name that its wrapper imports. -/
def rename (tag : String) : String :=
  "  defineCustomElement" ++ Naming.className tag ++ " as define" ++ Naming.className tag

def definerExport (tag : String) : String :=
  "export \x7b define" ++ Naming.className tag ++ " \x7d;"

/-- The definitions, with the module that they take the definers from. -/
def definitions (tags : List String) (source : String) : String :=
  "/* auto-generated custom element definers */\n" ++
    if tags = [] then "export \x7b\x7d;\n"
    else
      "import \x7b\n" ++ ",\n".intercalate (tags.map rename) ++ "\n\x7d from " ++
        Naming.quoted source ++ ";\n\n" ++ "\n".intercalate (tags.map definerExport) ++ "\n"

/-- The import of a class into the directives array. -/
def arrayImport (file dir tag : String) : String :=
  "import \x7b " ++ Naming.className tag ++ " \x7d from " ++
    Naming.quoted (Path.specifier file (ComponentFiles.path dir tag) ".ts") ++ ";"

/-- The directives array. -/
def array (tags : List String) (file dir : String) : String :=
  "\n".intercalate (tags.map (arrayImport file dir)) ++ "\n\nexport const DIRECTIVES = [" ++
    if tags = [] then "];\n"
    else "\n  " ++ ",\n  ".intercalate (tags.map Naming.className) ++ "\n];\n"

/-- The entry of a tag in the export map. -/
def entry (subpath tag : String) : String × ExportEntry :=
  (ExportMap.key subpath tag, .ofTag subpath tag)

/-- The type entry point of a tag. -/
def declaration (libraryRoot subpath dir tag : String) : OutputFile :=
  let file := Path.resolve libraryRoot ("./" ++ subpath ++ "/" ++ tag ++ "/index.d.ts")
  ⟨file, "/* auto-generated entry point types for " ++ tag ++ " */\nexport \x7b " ++
    Naming.className tag ++ " \x7d from " ++
    Naming.quoted (Path.specifier file (ComponentFiles.path dir tag) ".ts") ++ ";\n"⟩

/-- The wrapper file of a tag: it says so, declares the class of the tag and
takes its definer from the definitions. -/
structure IsWrapperFile (dir tag : String) (f : OutputFile) : Prop where
  path : f.path = ComponentFiles.path dir tag
  header : ∃ rest, f.content =
    "/* tslint:disable */\n/* auto-generated angular directive proxy for " ++ tag ++ " */\n" ++ rest
  definer : ∃ before after, f.content =
    before ++ ("import \x7b define" ++ Naming.className tag ++ " \x7d from './definitions';") ++
      after
  declares : Declares f.content (Naming.className tag)

end Artifact

open Artifact

/-- A plan whose artifacts are made for these tags and nothing else. The files
that belong to no tag are the proxy file, the support module and the value
accessors. -/
structure Plan.Describes (p : Plan) (t : Target) (paths : TargetPaths) (tags : List String) :
    Prop where
  units : (p.wrappers.map fun w => (w.tag, w.className)) =
    tags.map fun tag => (tag, Naming.className tag)
  files : ∃ wrapperFiles source,
    List.Forall₂ (IsWrapperFile paths.componentDir) tags wrapperFiles ∧
      p.files = ⟨paths.proxyFile, ProxyFile.barrelText paths⟩ :: wrapperFiles ++
        [⟨Path.join paths.componentDir ["index.ts"], barrel tags⟩,
          ⟨Path.join paths.componentDir ["definitions.ts"], definitions tags source⟩] ++
        [⟨ProxyFile.supportFile paths, Support.source⟩] ++
        (paths.arrayFile.map fun file =>
          (⟨file, array tags file paths.componentDir⟩ : OutputFile)).toList ++
        ValueAccessor.files t.accessors paths.proxyDir ++
        tags.map (declaration (Path.directory paths.libraryManifest) t.subpath paths.componentDir)
  exports : ∃ members exports : Json.Members,
    p.manifest = some ⟨paths.libraryManifest, Manifest.text members⟩ ∧
    Entries.get? members "exports" = some (.obj exports) ∧
    ((Entries.keys exports).filter fun key => ExportMap.IsBelow t.subpath key).Perm
      (tags.map (ExportMap.key t.subpath)) ∧
    ∀ tag ∈ tags, Entries.get? exports (ExportMap.key t.subpath tag) =
      some (ExportEntry.ofTag t.subpath tag).toJson

/-! ## Files of an assembly -/

namespace Assembly

variable {a : Assembly}

/-- The tags of an assembly. -/
def tags (a : Assembly) : List String := a.components.map Component.tag

/-- What is made from the tag and the class of each wrapper is made from the tags. -/
theorem map_wrappers {α : Type _} {f : Wrapper → α} {g : String → α}
    (h : ∀ c, f (a.wrapperOf c) = g c.tag) : a.wrappers.map f = a.tags.map g := by
  unfold wrappers tags
  rw [List.map_map, List.map_map]
  exact List.map_congr_left fun c _ => h c

theorem barrelText_wrappers : ComponentFiles.barrelText a.wrappers = barrel a.tags := by
  have hlines : a.wrappers.map ComponentFiles.barrelLine = a.tags.map exportLine :=
    map_wrappers fun _ => rfl
  unfold ComponentFiles.barrelText barrel
  rw [hlines]

theorem definitionsText_wrappers (source : String) :
    ComponentFiles.definitionsText a.wrappers source = definitions a.tags source := by
  have himports : a.wrappers.map ComponentFiles.definerImport = a.tags.map rename :=
    map_wrappers fun _ => rfl
  have hexports : a.wrappers.map ComponentFiles.definerExport = a.tags.map definerExport :=
    map_wrappers fun _ => rfl
  have hempty : a.tags = [] ↔ a.wrappers = [] := by
    unfold tags wrappers
    rw [List.map_eq_nil_iff, List.map_eq_nil_iff]
  unfold ComponentFiles.definitionsText definitions
  simp only [hempty, ← himports, ← hexports]
  cases a.wrappers with
  | nil => rfl
  | cons w rest => rfl

theorem directivesText_components (file dir : String) :
    directivesText a.components file (.componentDir dir) = array a.tags file dir := by
  have himports : a.components.map (DirectiveSource.classImport file dir) =
      a.tags.map (arrayImport file dir) := by
    unfold tags
    rw [List.map_map]
    rfl
  have hentries : a.components.map (DirectiveSource.componentDir dir).entry =
      a.tags.map Naming.className := by
    unfold tags
    rw [List.map_map]
    rfl
  have hempty : a.tags = [] ↔ a.components = [] := List.map_eq_nil_iff
  unfold directivesText array DirectiveSource.importText
  simp only [hempty, ← himports, ← hentries]
  cases a.components with
  | nil => rfl
  | cons c rest => rfl

/-- The table of the entries keeps the order of the tags. -/
theorem entries_exportMap (hn : a.tags.Nodup) :
    a.exportMap.entries.entries = a.tags.map (entry a.target.subpath) := by
  have hentries : (a.components.map fun c => entry a.target.subpath c.tag) =
      a.tags.map (entry a.target.subpath) := by
    unfold tags
    rw [List.map_map]
    rfl
  show (Table.ofList (a.components.map fun c => entry a.target.subpath c.tag)).entries = _
  rw [hentries]
  apply Table.entries_ofList_of_nodup
  unfold Entries.keys
  rw [List.map_map]
  exact hn.map fun _ _ => ExportMap.key_injective

theorem keys_exportMap (hn : a.tags.Nodup) :
    a.exportMap.entries.keys = a.tags.map (ExportMap.key a.target.subpath) := by
  unfold Table.keys Entries.keys
  rw [entries_exportMap hn, List.map_map]
  rfl

theorem declarations_eq (hn : a.tags.Nodup) :
    a.declarations = a.tags.map
      (declaration (Path.directory a.paths.libraryManifest) a.target.subpath
        a.paths.componentDir) := by
  unfold declarations ExportMap.declarations
  rw [entries_exportMap hn, List.map_map]
  rfl

/-- The wrapper of a component is the file of its tag. -/
theorem isWrapperFile (c : Component) :
    IsWrapperFile a.paths.componentDir c.tag ⟨a.wrapperFile c,
      ComponentFiles.wrapperText (a.wrapperOf c) (a.wrapperFile c) a.supportFile⟩ := by
  have hdeclares : Declares (a.wrapperOf c).definition (Naming.className c.tag) :=
    Declares.classText (Wrapper.classOf c _)
  refine ⟨rfl, ?_, ?_, hdeclares.wrapperText _ _⟩
  · show ∃ rest, "\n\n".intercalate ((_ ++ _) :: _) ++ "\n" = _ ++ rest
    rw [String.intercalate_cons_append, String.append_assoc]
    exact ⟨_, rfl⟩
  · have hm : "import \x7b define" ++ Naming.className c.tag ++ " \x7d from './definitions';" ∈
        ComponentFiles.sections (a.wrapperOf c) (a.wrapperFile c) a.supportFile := by
      unfold ComponentFiles.sections
      simp only [List.mem_append, List.mem_cons]
      exact .inl (.inl (.inr (.inr (.inr (.inl rfl)))))
    obtain ⟨before, after, he⟩ := exists_append_of_mem_intercalate "\n\n" hm
    refine ⟨before, after ++ "\n", ?_⟩
    show "\n\n".intercalate _ ++ "\n" = _
    rw [he]
    simp only [String.append_assoc]

theorem forall₂_isWrapperFile :
    List.Forall₂ (IsWrapperFile a.paths.componentDir) a.tags (a.wrappers.map fun w =>
      ⟨ComponentFiles.path a.paths.componentDir w.tag,
        ComponentFiles.wrapperText w (ComponentFiles.path a.paths.componentDir w.tag)
          a.supportFile⟩) := by
  unfold tags wrappers
  rw [List.map_map, List.forall₂_map_left_iff, List.forall₂_map_right_iff]
  exact List.forall₂_same.mpr fun c _ => isWrapperFile c

theorem arrayFiles_eq (hm : a.mode.isPerComponent = true) :
    a.arrayFiles = (a.paths.arrayFile.map fun file =>
      (⟨file, array a.tags file a.paths.componentDir⟩ : OutputFile)).toList := by
  unfold arrayFiles directiveSource
  rw [if_pos hm]
  cases a.paths.arrayFile with
  | none => rfl
  | some file =>
    simp only [directivesText_components]
    rfl

end Assembly

/-! ## The owned keys -/

/-- Below its subpath a merged map has the keys of its entries, each once. -/
theorem ExportMap.perm_keys_mergeExports {m : ExportMap} {exports : Json.Members}
    (hc : m.IsContained) (hn : exports.keys.Nodup) :
    ((m.mergeExports exports).keys.filter fun key => IsBelow m.subpath key).Perm
      m.entries.keys := by
  have hnodup : (m.mergeExports exports).keys.Nodup :=
    Entries.nodup_keys_insertAll (Entries.nodup_keys_filter hn)
  apply (List.perm_ext_iff_of_nodup (hnodup.filter _) m.entries.distinct).mpr
  intro key
  show _ ↔ key ∈ m.entries.keys
  rw [List.mem_filter, mem_keys_mergeExports, decide_eq_true_iff]
  constructor
  · rintro ⟨hk | ⟨-, hout⟩, hb⟩
    · exact hk
    · exact absurd hb hout
  · exact fun hk => ⟨.inl hk, hc key hk⟩

/-- A manifest that is read has each key of its exports once. -/
theorem Manifest.nodup_keys_exportsOf {path : String} {read : Except ReadFault String}
    {members : Json.Members} (h : Manifest.ofRead path read = .ok members) :
    (ExportMap.exportsOf members).keys.Nodup := by
  have hdistinct : ∀ {text : String}, Json.read text = .ok (.obj members) →
      (ExportMap.exportsOf members).keys.Nodup := by
    intro text hread
    obtain ⟨v, hv⟩ := Json.exists_distinct_of_read hread
    obtain ⟨-, hvalues⟩ := Json.nodup_keys_of_distinct hv.symm
    unfold ExportMap.exportsOf
    cases he : Entries.get? members "exports" with
    | none => exact List.nodup_nil
    | some value =>
      obtain ⟨w, hw⟩ := hvalues _ (Entries.mem_of_get? he)
      cases value with
      | obj exports => exact (Json.nodup_keys_of_distinct hw.symm).1
      | null => exact List.nodup_nil
      | _ => exact List.nodup_singleton _
  unfold Manifest.ofRead at h
  split at h
  · unfold Manifest.ofText at h
    split at h
    · cases h
      exact List.nodup_nil
    · split at h
      · cases h
      · rename_i hread
        cases h
        exact hdistinct hread
      · cases h
  · cases h
    exact List.nodup_nil
  · cases h

/-! ## Plans -/

/-- The plan of an assembly describes its tags. -/
theorem Assembly.describes {a : Assembly} {view : FileView} {p : Plan}
    (h : Plan.ofAssembly a view = .ok p) (hm : a.mode.isPerComponent = true)
    (hn : a.tags.Nodup) : p.Describes a.target a.paths a.tags := by
  rcases cases_of_ofAssembly h with ⟨hnone, -⟩ | ⟨-, members, hread, rfl⟩
  · exact absurd hm (Bool.eq_false_iff.mp hnone)
  · refine ⟨map_wrappers fun _ => rfl, ⟨_, a.typeModule, forall₂_isWrapperFile, ?_⟩,
      ⟨_, _, rfl, ExportMap.get?_exports_merge _ _, ?_, ?_⟩⟩
    · show a.files ++ a.declarations = _
      unfold files wrapperFiles ComponentFiles.files
      rw [if_pos hm, arrayFiles_eq hm, declarations_eq hn, barrelText_wrappers,
        definitionsText_wrappers]
      simp only [List.cons_append, List.append_assoc]
      rfl
    · have hperm := ExportMap.perm_keys_mergeExports (m := a.exportMap)
        ExportMap.isContained_ofComponents (Manifest.nodup_keys_exportsOf hread)
      rwa [keys_exportMap hn] at hperm
    · intro tag ht
      have hentry : entry a.target.subpath tag ∈ a.exportMap.entries.entries := by
        rw [entries_exportMap hn]
        exact List.mem_map_of_mem ht
      have hbelow : ExportMap.IsBelow a.exportMap.subpath (ExportMap.key a.target.subpath tag) :=
        ExportMap.isContained_ofComponents _ (List.mem_map_of_mem hentry)
      have hget : a.exportMap.entries.get? (ExportMap.key a.target.subpath tag) =
          some (ExportEntry.ofTag a.target.subpath tag) :=
        Entries.get?_of_mem a.exportMap.entries.distinct hentry
      refine (ExportMap.get?_mergeExports_of_isBelow hbelow).trans ?_
      rw [hget]
      rfl

namespace Target

variable {t : Target} {view : FileView} {components : List Component} {config : BuildConfig}
  {p : Plan} {tag : String}

/-- A tag is that of a pass when a component has it that is neither internal nor
excluded. -/
theorem mem_tags : tag ∈ t.tags components ↔
    ∃ c ∈ components, c.tag = tag ∧ c.isInternal = false ∧ tag ∉ t.excluded := by
  unfold tags
  rw [Component.mem_tags_select]
  have hwanted : ∀ c : Component, c.isWanted t.excluded = true ↔
      c.isInternal = false ∧ c.tag ∉ t.excluded := by
    intro c
    unfold Component.isWanted
    rw [Bool.and_eq_true, Bool.not_eq_true', Bool.not_eq_true', List.contains_eq_mem,
      decide_eq_false_iff_not]
  constructor
  · rintro ⟨c, hc, hw, rfl⟩
    exact ⟨c, hc, rfl, (hwanted c).mp hw⟩
  · rintro ⟨c, hc, rfl, hw⟩
    exact ⟨c, hc, (hwanted c).mpr hw, rfl⟩

/-- All artifacts of a pass with a file for each component have exactly one item
for each tag of the pass: none for a tag that is only internal, excluded or left
over in the manifest. -/
theorem describes_of_plan (hp : t.plan view components config = .ok p)
    (htype : t.outputType = .standalone) (hexport : t.individualExport = true) :
    (t.tags components).Pairwise (· < ·) ∧
      (∀ tag, tag ∈ t.tags components ↔
        ∃ c ∈ components, c.tag = tag ∧ c.isInternal = false ∧ tag ∉ t.excluded) ∧
      p.Describes t (t.paths config.rootDir) (t.tags components) := by
  refine ⟨Component.pairwise_tags_select, fun tag => mem_tags, ?_⟩
  obtain ⟨types, -, ha⟩ := assembly_of_plan hp
  have hmode : (OutputMode.ofTarget t).isPerComponent = true := by
    unfold OutputMode.ofTarget
    rw [htype, hexport]
    rfl
  exact Assembly.describes ha hmode Component.nodup_tags_select

/-- A view that shows a manifest with the subpath of a component that is gone. -/
def staleView : FileView := fun _ => .ok (Manifest.text ExportMap.mapped)

theorem describes_of_plan_stale :
    ∃ p, perComponent.plan staleView [myInput] repository = .ok p ∧
      p.Describes perComponent (perComponent.paths repository.rootDir) ["my-input"] := by
  have htags : perComponent.tags [myInput] = ["my-input"] := by
    unfold tags
    rw [select_myInput]
    rfl
  cases hp : perComponent.plan staleView [myInput] repository with
  | error e =>
    have hok : (perComponent.plan staleView [myInput] repository).isOk = true := by
      decide +kernel
    rw [hp] at hok
    cases hok
  | ok p =>
    obtain ⟨-, -, hdescribes⟩ := describes_of_plan hp rfl rfl
    rw [htags] at hdescribes
    exact ⟨p, rfl, hdescribes⟩

end Target

end ElementWrappers
