import Mathlib
import ElementWrappers.Pass.Plan
import ElementWrappers.Proofs.EntryLaws
import ElementWrappers.Proofs.Specifier

/-!
# Links between generated modules

A `ModuleLink` is a relative module specifier with the file it is written in.
`Assembly.links` lists the links of a pass. `Assembly.closed_links` says that
every one of them is written in a file of the plan and leads to another: the
specifier with `.ts`, joined to the directory of its file, is a planned path.
-/

namespace ElementWrappers

/-! ## Statements in a text -/

theorem exists_append_of_mem_intercalate {parts : List String} {part : String}
    (separator : String) (hm : part ∈ parts) :
    ∃ before after, separator.intercalate parts = before ++ part ++ after := by
  induction parts with
  | nil => cases hm
  | cons p rest ih =>
    cases rest with
    | nil =>
      obtain rfl := List.mem_singleton.mp hm
      exact ⟨"", "", by rw [String.intercalate_singleton, String.empty_append, String.append_empty]⟩
    | cons q rest =>
      rw [String.intercalate_cons_cons]
      rcases List.mem_cons.mp hm with rfl | hm
      · exact ⟨"", separator ++ separator.intercalate (q :: rest),
          by rw [String.empty_append, String.append_assoc]⟩
      · obtain ⟨before, after, he⟩ := ih hm
        exact ⟨p ++ separator ++ before, after, by rw [he]; simp only [String.append_assoc]⟩

/-- A statement of `content` ends in a specifier. -/
def Writes (content specifier : String) : Prop :=
  ∃ before after, content = before ++ " from " ++ Naming.quoted specifier ++ ";" ++ after

namespace Writes

variable {content specifier : String}

theorem of_eq (before : String)
    (h : content = before ++ " from " ++ Naming.quoted specifier ++ ";") :
    Writes content specifier :=
  ⟨before, "", by rw [h, String.append_empty]⟩

theorem append_right (h : Writes content specifier) (rest : String) :
    Writes (content ++ rest) specifier := by
  obtain ⟨before, after, rfl⟩ := h
  exact ⟨before, after ++ rest, by simp only [String.append_assoc]⟩

theorem append_left (h : Writes content specifier) (start : String) :
    Writes (start ++ content) specifier := by
  obtain ⟨before, after, rfl⟩ := h
  exact ⟨start ++ before, after, by simp only [String.append_assoc]⟩

theorem intercalate {parts : List String} {part : String} (separator : String)
    (hm : part ∈ parts) (h : Writes part specifier) :
    Writes (separator.intercalate parts) specifier := by
  obtain ⟨before, after, he⟩ := exists_append_of_mem_intercalate separator hm
  rw [he]
  exact (h.append_left before).append_right after

theorem sourceText {lines : List String} {line : String} (hm : line ∈ lines)
    (h : Writes line specifier) : Writes (sourceText lines) specifier := by
  unfold ElementWrappers.sourceText
  induction lines with
  | nil => cases hm
  | cons l rest ih =>
    rw [List.map_cons, String.join_cons]
    rcases List.mem_cons.mp hm with rfl | hm
    · exact (h.append_right _).append_right _
    · exact (ih hm).append_left _

theorem namedImport {names : List String} (h : names ≠ []) (specifier : String) :
    Writes (Naming.namedImport names specifier) specifier := by
  cases names with
  | nil => exact absurd rfl h
  | cons name rest =>
    refine of_eq ("import \x7b " ++ ", ".intercalate (name :: rest) ++ " \x7d") ?_
    rw [Naming.namedImport, show " \x7d from " = " \x7d" ++ " from " by decide]
    simp only [String.append_assoc]

end Writes

/-! ## Links -/

/-- A relative module specifier, and the file that it is written in. -/
structure ModuleLink where
  importer : String
  specifier : String

namespace ModuleLink

/-- The file that a link leads to. -/
def target (l : ModuleLink) : String :=
  Path.join (Path.directory l.importer) [l.specifier ++ ".ts"]

/-- The link is written in one of the files, and leads to one of them. -/
structure Closed (l : ModuleLink) (files : List OutputFile) : Prop where
  written : ∃ f ∈ files, f.path = l.importer ∧ Writes f.content l.specifier
  resolves : ∃ f ∈ files, f.path = l.target

theorem Closed.ofFiles {files : List OutputFile} {importer specifier text path content : String}
    (hf : ⟨importer, text⟩ ∈ files) (hw : Writes text specifier) (hg : ⟨path, content⟩ ∈ files)
    (ht : target ⟨importer, specifier⟩ = path) : Closed ⟨importer, specifier⟩ files :=
  ⟨⟨_, hf, rfl, hw⟩, ⟨_, hg, ht.symm⟩⟩

/-- A computed specifier leads to the file it was computed for. -/
theorem target_specifier {importer file : String} (hi : Path.IsAbsolute importer)
    (hf : Path.IsAbsolute file) (he : Path.EndsIn ".ts" file) :
    target ⟨importer, Path.specifier importer file ".ts"⟩ = file :=
  (Path.join_specifier hi.isRooted hf.isRooted he).trans hf.normal

/-- A specifier with a leading dot leads to a file beside the importer. -/
theorem target_sibling {importer dir : String} (hd : Path.IsAbsolute dir)
    (hi : Path.directory importer = dir) (stem : String) :
    target ⟨importer, "./" ++ stem⟩ = Path.join dir [stem ++ ".ts"] := by
  have hs : Path.segmentsOf ("./" ++ stem ++ ".ts") = "." :: Path.segmentsOf (stem ++ ".ts") := by
    rw [show "./" = "." ++ "/" by decide, String.append_assoc, Path.segmentsOf_append]
    rfl
  show Path.join (Path.directory importer) ["./" ++ stem ++ ".ts"] = _
  rw [hi, Path.join_eq_toText hd.ne_empty, Path.join_eq_toText hd.ne_empty,
    List.flatMap_singleton, List.flatMap_singleton, hs, Path.walk_cons, Path.step_dot]

end ModuleLink

/-- An entry of the export map is that of a component. -/
theorem ExportMap.eq_of_mem_ofComponents {components : List Component} {exportSubpath : String}
    {entry : String × ExportEntry}
    (h : entry ∈ (ofComponents components exportSubpath).entries.entries) :
    ∃ c ∈ components, entry = (key (trimSlashes exportSubpath) c.tag,
      ExportEntry.ofTag (trimSlashes exportSubpath) c.tag) := by
  obtain ⟨c, hc, he⟩ := List.mem_map.mp (Table.mem_ofList h)
  exact ⟨c, hc, he.symm⟩

namespace Assembly

/-- The barrel of the wrapper files. -/
def barrelFile (a : Assembly) : String :=
  Path.join a.paths.componentDir [ComponentFiles.barrelName]

/-- The file of the wrapper of a component. -/
def wrapperFile (a : Assembly) (c : Component) : String :=
  ComponentFiles.path a.paths.componentDir c.tag

/-- The links in the proxy file. -/
def proxyLinks (a : Assembly) : List ModuleLink :=
  let file := a.paths.proxyFile
  if a.mode.isPerComponent then [⟨file, Path.specifier file a.barrelFile ".ts"⟩]
  else [⟨file, Path.specifier file a.supportFile ".ts"⟩]

/-- The links of one wrapper: from its file to the support module and to the
definitions, and from the barrel to its file. -/
def wrapperLinks (a : Assembly) (c : Component) : List ModuleLink :=
  let file := a.wrapperFile c
  [⟨file, Path.specifier file a.supportFile ".ts"⟩, ⟨file, "./definitions"⟩,
    ⟨a.barrelFile, "./" ++ c.tag⟩]

/-- The links in the directives array. -/
def arrayLinks (a : Assembly) : List ModuleLink :=
  match a.paths.arrayFile with
  | none => []
  | some file =>
    if a.mode.isPerComponent then
      a.components.map fun c => ⟨file, Path.specifier file (a.wrapperFile c) ".ts"⟩
    else [⟨file, Path.specifier file a.paths.proxyFile ".ts"⟩]

/-- The links from the value accessors to their base class. -/
def accessorLinks (a : Assembly) : List ModuleLink :=
  (AccessorGroup.ofConfigs a.target.accessors).map fun g =>
    ⟨Path.join a.paths.proxyDir [g.fileName], "./value-accessor"⟩

/-- The links from the type entry points to the wrappers. -/
def declarationLinks (a : Assembly) : List ModuleLink :=
  a.exportMap.entries.entries.map fun entry =>
    let file := Path.resolve (Path.directory a.paths.libraryManifest) entry.2.types
    ⟨file, Path.specifier file (ComponentFiles.path a.paths.componentDir entry.2.tag) ".ts"⟩

/-- All relative specifiers between the files of a pass. -/
def links (a : Assembly) : List ModuleLink :=
  a.proxyLinks ++ a.arrayLinks ++ a.accessorLinks ++
    if a.mode.isPerComponent then a.components.flatMap a.wrapperLinks ++ a.declarationLinks else []

/-- All files of a pass but the manifest. -/
def plannedFiles (a : Assembly) : List OutputFile :=
  a.files ++ if a.mode.isPerComponent then a.declarations else []

/-- Everything that a plan of an assembly can be. -/
theorem cases_of_ofAssembly {a : Assembly} {view : FileView} {p : Plan}
    (h : Plan.ofAssembly a view = .ok p) :
    (a.mode.isPerComponent = false ∧ p = ⟨a.mode, a.wrappers, a.files, none⟩) ∨
      a.mode.isPerComponent = true ∧ ∃ members,
        Manifest.ofRead a.paths.libraryManifest (view a.paths.libraryManifest) = .ok members ∧
          p = ⟨a.mode, a.wrappers, a.files ++ a.declarations,
            some ⟨a.paths.libraryManifest, Manifest.text (a.exportMap.merge members)⟩⟩ := by
  unfold Plan.ofAssembly at h
  split at h
  · rename_i hmode
    extract_lets path at h
    split at h
    · cases h
    · rename_i members hread
      exact .inr ⟨hmode, members, hread, (Except.ok.inj h).symm⟩
  · rename_i hmode
    exact .inl ⟨Bool.eq_false_of_not_eq_true hmode, (Except.ok.inj h).symm⟩

/-- What a plan has of its assembly. -/
theorem eq_of_ofAssembly {a : Assembly} {view : FileView} {p : Plan}
    (h : Plan.ofAssembly a view = .ok p) :
    p.wrappers = a.wrappers ∧ p.files = a.plannedFiles ∧
      p.manifest.map OutputFile.path =
        if a.mode.isPerComponent then some a.paths.libraryManifest else none := by
  unfold plannedFiles
  rcases cases_of_ofAssembly h with ⟨hmode, rfl⟩ | ⟨hmode, members, -, rfl⟩
  · rw [hmode]
    exact ⟨rfl, (List.append_nil _).symm, rfl⟩
  · rw [hmode]
    exact ⟨rfl, rfl, rfl⟩

theorem files_of_ofAssembly {a : Assembly} {view : FileView} {p : Plan}
    (h : Plan.ofAssembly a view = .ok p) : p.files = a.plannedFiles :=
  (eq_of_ofAssembly h).2.1

theorem wrappers_of_ofAssembly {a : Assembly} {view : FileView} {p : Plan}
    (h : Plan.ofAssembly a view = .ok p) : p.wrappers = a.wrappers :=
  (eq_of_ofAssembly h).1

/-! ## Places of a pass -/

end Assembly

/-- Whatever stands before its extension, the file of a module has a name. -/
theorem Path.isName_append_ts {stem : String} (hs : '/' ∉ stem.toList) (hb : '\\' ∉ stem.toList) :
    Path.IsName (stem ++ ".ts") := by
  have hl : 2 < (stem ++ ".ts").length := by
    rw [String.length_append]
    show 2 < stem.length + 3
    omega
  refine ⟨?_, ?_, ?_, ?_, ?_⟩
  · intro e
    rw [e] at hl
    exact absurd hl (by decide)
  · intro e
    rw [e] at hl
    exact absurd hl (by decide)
  · intro e
    rw [e] at hl
    exact absurd hl (by decide)
  · rw [String.toList_append, List.mem_append]
    exact not_or.mpr ⟨hs, by decide⟩
  · rw [String.toList_append, List.mem_append]
    exact not_or.mpr ⟨hb, by decide⟩

namespace Assembly

/-- A tag that names a file. -/
structure IsFileTag (tag : String) : Prop where
  ne_empty : tag ≠ ""
  no_slash : '/' ∉ tag.toList
  no_backslash : '\\' ∉ tag.toList

theorem IsFileTag.isName {tag : String} (h : IsFileTag tag) : Path.IsName (tag ++ ".ts") :=
  Path.isName_append_ts h.no_slash h.no_backslash

/-- All places of a pass are absolute, the proxy file is a module, and every
tag names a file. -/
structure IsPlaced (a : Assembly) : Prop where
  proxyFile : Path.IsAbsolute a.paths.proxyFile
  proxyDir : Path.directory a.paths.proxyFile = a.paths.proxyDir
  componentDir : Path.IsAbsolute a.paths.componentDir
  libraryManifest : Path.IsAbsolute a.paths.libraryManifest
  arrayFile : ∀ file, a.paths.arrayFile = some file → Path.IsAbsolute file
  module : Path.EndsIn ".ts" a.paths.proxyFile
  tags : ∀ c ∈ a.components, IsFileTag c.tag

end Assembly

theorem Path.endsIn_join {dir extension : String} (stem : String) (hd : Path.IsAbsolute dir)
    (hs : stem ≠ "") (hn : Path.IsName (stem ++ extension)) :
    Path.EndsIn extension (Path.join dir [stem ++ extension]) :=
  ⟨stem, hs, last_join_name hd hn⟩

namespace Assembly

variable {a : Assembly}

theorem IsPlaced.proxyDir_isAbsolute (h : a.IsPlaced) : Path.IsAbsolute a.paths.proxyDir :=
  h.proxyDir ▸ h.proxyFile.directory

theorem IsPlaced.wrapperFile (h : a.IsPlaced) (c : Component) :
    Path.IsAbsolute (a.wrapperFile c) :=
  h.componentDir.join _

theorem IsPlaced.endsIn_wrapperFile (h : a.IsPlaced) {c : Component} (hc : c ∈ a.components) :
    Path.EndsIn ".ts" (a.wrapperFile c) :=
  Path.endsIn_join c.tag h.componentDir (h.tags c hc).ne_empty (h.tags c hc).isName

theorem IsPlaced.directory_wrapperFile (h : a.IsPlaced) {c : Component} (hc : c ∈ a.components) :
    Path.directory (a.wrapperFile c) = a.paths.componentDir :=
  Path.directory_join_name h.componentDir (h.tags c hc).isName

theorem isName_barrel : Path.IsName ComponentFiles.barrelName := by
  constructor <;> decide

theorem IsPlaced.barrelFile (h : a.IsPlaced) : Path.IsAbsolute a.barrelFile :=
  h.componentDir.join _

theorem IsPlaced.supportFile (h : a.IsPlaced) : Path.IsAbsolute a.supportFile :=
  h.proxyDir_isAbsolute.join _

theorem IsPlaced.endsIn_supportFile (h : a.IsPlaced) : Path.EndsIn ".ts" a.supportFile := by
  have hn : Path.IsName "utils.ts" := by constructor <;> decide
  have hd : Path.IsName "angular-component-lib" := by constructor <;> decide
  refine ⟨"utils", by decide, ?_⟩
  show (Path.ofText (Path.join a.paths.proxyDir ["angular-component-lib", "utils.ts"])).last = _
  rw [Path.ofText_join h.proxyDir_isAbsolute.ne_empty]
  simp [Path.segmentsOf_name hn, Path.segmentsOf_name hd, Path.step_name _ hn, Path.step_name _ hd,
    Path.last]

theorem IsPlaced.endsIn_barrelFile (h : a.IsPlaced) : Path.EndsIn ".ts" a.barrelFile :=
  Path.endsIn_join "index" h.componentDir (by decide) isName_barrel

/-! ## Planned files -/

/-- The wrapper of a component of the pass. -/
def wrapperOf (a : Assembly) (c : Component) : Wrapper :=
  .ofComponent c (a.mode.wrapperOptions a.target a.typeModule)

theorem wrapperFiles_subset (a : Assembly) : a.wrapperFiles ⊆ a.plannedFiles := by
  intro f hf
  simp only [plannedFiles, files, List.mem_append]
  exact .inl (.inl (.inl (.inl hf)))

theorem supportFile_mem (a : Assembly) : ⟨a.supportFile, Support.source⟩ ∈ a.plannedFiles := by
  simp [plannedFiles, files]

theorem arrayFiles_subset (a : Assembly) : a.arrayFiles ⊆ a.plannedFiles := by
  intro f hf
  simp only [plannedFiles, files, List.mem_append]
  exact .inl (.inl (.inr hf))

theorem accessorFiles_subset (a : Assembly) :
    ValueAccessor.files a.target.accessors a.paths.proxyDir ⊆ a.plannedFiles := by
  intro f hf
  simp only [plannedFiles, files, List.mem_append]
  exact .inl (.inr hf)

theorem declarations_subset (hm : a.mode.isPerComponent = true) :
    a.declarations ⊆ a.plannedFiles := by
  intro f hf
  rw [plannedFiles, if_pos hm]
  exact List.mem_append_right _ hf

theorem proxyText_mem (hm : ¬ a.mode.isPerComponent = true) :
    ⟨a.paths.proxyFile, ProxyFile.text a.wrappers a.mode a.location a.target a.paths⟩ ∈
      a.plannedFiles := by
  refine a.wrapperFiles_subset ?_
  rw [wrapperFiles, if_neg hm]
  exact List.mem_singleton_self _

theorem proxyBarrel_mem (hm : a.mode.isPerComponent = true) :
    ⟨a.paths.proxyFile, ProxyFile.barrelText a.paths⟩ ∈ a.plannedFiles := by
  refine a.wrapperFiles_subset ?_
  rw [wrapperFiles, if_pos hm]
  exact List.mem_cons_self

theorem componentFiles_subset (hm : a.mode.isPerComponent = true) :
    ComponentFiles.files a.wrappers a.paths.componentDir a.supportFile a.typeModule ⊆
      a.plannedFiles := by
  intro f hf
  refine a.wrapperFiles_subset ?_
  rw [wrapperFiles, if_pos hm]
  exact List.mem_cons_of_mem _ hf

theorem wrapperText_mem (hm : a.mode.isPerComponent = true) {c : Component}
    (hc : c ∈ a.components) :
    ⟨a.wrapperFile c, ComponentFiles.wrapperText (a.wrapperOf c) (a.wrapperFile c)
      a.supportFile⟩ ∈ a.plannedFiles := by
  refine componentFiles_subset hm (List.mem_append_left _ (List.mem_map.mpr ?_))
  exact ⟨a.wrapperOf c, List.mem_map_of_mem hc, rfl⟩

theorem barrelText_mem (hm : a.mode.isPerComponent = true) :
    ⟨a.barrelFile, ComponentFiles.barrelText a.wrappers⟩ ∈ a.plannedFiles :=
  componentFiles_subset hm (List.mem_append_right _ List.mem_cons_self)

theorem definitions_mem (hm : a.mode.isPerComponent = true) :
    ⟨Path.join a.paths.componentDir [ComponentFiles.definitionsName],
      ComponentFiles.definitionsText a.wrappers a.typeModule⟩ ∈ a.plannedFiles :=
  componentFiles_subset hm
    (List.mem_append_right _ (List.mem_cons_of_mem _ (List.mem_singleton_self _)))

/-! ## Closed links -/

theorem writes_barrelText (paths : TargetPaths) :
    Writes (ProxyFile.barrelText paths) (Path.specifier paths.proxyFile
      (Path.join paths.componentDir [ComponentFiles.barrelName]) ".ts") := by
  refine ⟨ProxyFile.header ++ "export *", "\n", ?_⟩
  rw [ProxyFile.barrelText, show "export * from " = "export *" ++ " from " by decide,
    show ";\n" = ";" ++ "\n" by decide]
  simp only [String.append_assoc]

theorem imports_ne_nil (hasOutputs : Bool) : Support.imports hasOutputs ≠ [] := by
  cases hasOutputs <;> simp [Support.imports]

theorem writes_text (wrappers : List Wrapper) (mode : OutputMode) (location : TypeLocation)
    (target : Target) (paths : TargetPaths) :
    Writes (ProxyFile.text wrappers mode location target paths)
      (Path.specifier paths.proxyFile (ProxyFile.supportFile paths) ".ts") := by
  have h := Writes.namedImport (imports_ne_nil (wrappers.any Wrapper.hasOutputs))
    (Path.specifier paths.proxyFile (ProxyFile.supportFile paths) ".ts")
  refine (h.intercalate "\n\n" ?_).append_right "\n"
  exact List.mem_append_left _ (List.mem_cons_of_mem _ List.mem_cons_self)

theorem writes_wrapperText {w : Wrapper} {file support part specifier : String}
    (hm : part ∈ ComponentFiles.sections w file support) (h : Writes part specifier) :
    Writes (ComponentFiles.wrapperText w file support) specifier := by
  rw [ComponentFiles.wrapperText]
  exact (h.intercalate "\n\n" hm).append_right "\n"

theorem writes_support (w : Wrapper) (file support : String) :
    Writes (ComponentFiles.wrapperText w file support) (Path.specifier file support ".ts") := by
  refine writes_wrapperText ?_ (Writes.namedImport (imports_ne_nil w.hasOutputs) _)
  rw [ComponentFiles.sections, List.mem_append, List.mem_append, List.mem_cons, List.mem_cons]
  exact .inl (.inl (.inr (.inl rfl)))

theorem writes_definer (w : Wrapper) :
    Writes ("import \x7b define" ++ w.className ++ " \x7d from './definitions';")
      "./definitions" := by
  refine Writes.of_eq ("import \x7b define" ++ w.className ++ " \x7d") ?_
  rw [show " \x7d from './definitions';" =
    " \x7d" ++ " from " ++ Naming.quoted "./definitions" ++ ";" by decide]
  simp only [String.append_assoc]

theorem writes_definitions (w : Wrapper) (file support : String) :
    Writes (ComponentFiles.wrapperText w file support) "./definitions" := by
  refine writes_wrapperText ?_ (writes_definer w)
  rw [ComponentFiles.sections, List.mem_append, List.mem_append, List.mem_cons, List.mem_cons,
    List.mem_cons, List.mem_cons]
  exact .inl (.inl (.inr (.inr (.inr (.inl rfl)))))

theorem writes_barrelLine {wrappers : List Wrapper} {w : Wrapper} (hw : w ∈ wrappers)
    {tag : String} (ht : w.tag = tag) :
    Writes (ComponentFiles.barrelText wrappers) ("./" ++ tag) := by
  subst ht
  have h : Writes (ComponentFiles.barrelLine w) ("./" ++ w.tag) := by
    refine Writes.of_eq ("export \x7b " ++ w.className ++ " \x7d") ?_
    rw [ComponentFiles.barrelLine, Naming.quoted,
      show " \x7d from './" = " \x7d" ++ " from " ++ "'" ++ "./" by decide,
      show "';" = "'" ++ ";" by decide]
    simp only [String.append_assoc]
  exact (h.intercalate "\n" (List.mem_cons_of_mem _ (List.mem_map_of_mem hw))).append_right "\n"

theorem writes_directives {components : List Component} {file specifier : String}
    {source : DirectiveSource} (h : Writes (source.importText file components) specifier) :
    Writes (directivesText components file source) specifier := by
  unfold directivesText
  exact (h.append_right _).append_right _

theorem writes_arrayProxy (components : List Component) (file proxyFile : String) :
    Writes (directivesText components file (.proxyFile proxyFile))
      (Path.specifier file proxyFile ".ts") := by
  refine writes_directives (Writes.of_eq "import * as d" ?_)
  show "import * as d from " ++ Naming.quoted (Path.specifier file proxyFile ".ts") ++ ";" = _
  rw [show "import * as d from " = "import * as d" ++ " from " by decide]

theorem writes_arrayClass {components : List Component} {c : Component} (hc : c ∈ components)
    (file dir : String) :
    Writes (directivesText components file (.componentDir dir))
      (Path.specifier file (ComponentFiles.path dir c.tag) ".ts") := by
  have h : Writes (DirectiveSource.classImport file dir c)
      (Path.specifier file (ComponentFiles.path dir c.tag) ".ts") := by
    refine Writes.of_eq ("import \x7b " ++ Naming.className c.tag ++ " \x7d") ?_
    rw [DirectiveSource.classImport, show " \x7d from " = " \x7d" ++ " from " by decide]
    simp only [String.append_assoc]
  exact writes_directives (h.intercalate "\n" (List.mem_map_of_mem hc))

theorem writes_accessor (g : AccessorGroup) : Writes g.source "./value-accessor" := by
  have h : Writes "import \x7b ValueAccessor \x7d from './value-accessor';" "./value-accessor" :=
    Writes.of_eq "import \x7b ValueAccessor \x7d" (by decide)
  rw [AccessorGroup.source]
  refine h.sourceText ?_
  simp

theorem writes_declaration (e : ExportEntry) (file dir : String) :
    Writes (ExportMap.declarationText e file dir)
      (Path.specifier file (ComponentFiles.path dir e.tag) ".ts") := by
  refine ⟨"/* auto-generated entry point types for " ++ e.tag ++ " */\nexport \x7b " ++
    Naming.className e.tag ++ " \x7d", "\n", ?_⟩
  delta ExportMap.declarationText
  rw [show " \x7d from " = " \x7d" ++ " from " by decide, show ";\n" = ";" ++ "\n" by decide]
  simp only [String.append_assoc]

theorem closed_proxyLinks (h : a.IsPlaced) : ∀ l ∈ a.proxyLinks, l.Closed a.plannedFiles := by
  intro l hl
  unfold proxyLinks at hl
  split at hl
  · rename_i hm
    obtain rfl := List.mem_singleton.mp hl
    refine .ofFiles (proxyBarrel_mem hm) (writes_barrelText a.paths) (barrelText_mem hm) ?_
    exact ModuleLink.target_specifier h.proxyFile h.barrelFile h.endsIn_barrelFile
  · rename_i hm
    obtain rfl := List.mem_singleton.mp hl
    refine .ofFiles (proxyText_mem hm) (writes_text _ _ _ _ _) a.supportFile_mem ?_
    exact ModuleLink.target_specifier h.proxyFile h.supportFile h.endsIn_supportFile

theorem closed_wrapperLinks (h : a.IsPlaced) (hm : a.mode.isPerComponent = true) {c : Component}
    (hc : c ∈ a.components) : ∀ l ∈ a.wrapperLinks c, l.Closed a.plannedFiles := by
  intro l hl
  simp only [wrapperLinks, List.mem_cons, List.not_mem_nil, or_false] at hl
  rcases hl with rfl | rfl | rfl
  · refine .ofFiles (wrapperText_mem hm hc) (writes_support _ _ _) a.supportFile_mem ?_
    exact ModuleLink.target_specifier (h.wrapperFile c) h.supportFile h.endsIn_supportFile
  · refine .ofFiles (wrapperText_mem hm hc) (writes_definitions _ _ _) (definitions_mem hm) ?_
    have ht := ModuleLink.target_sibling h.componentDir (h.directory_wrapperFile hc) "definitions"
    rwa [show "./" ++ "definitions" = "./definitions" by decide,
      show "definitions" ++ ".ts" = ComponentFiles.definitionsName by decide] at ht
  · have hw : a.wrapperOf c ∈ a.wrappers := List.mem_map_of_mem hc
    refine .ofFiles (barrelText_mem hm) (writes_barrelLine hw rfl) (wrapperText_mem hm hc) ?_
    exact ModuleLink.target_sibling h.componentDir
      (Path.directory_join_name h.componentDir isName_barrel) c.tag

theorem closed_arrayLinks (h : a.IsPlaced) : ∀ l ∈ a.arrayLinks, l.Closed a.plannedFiles := by
  intro l hl
  unfold arrayLinks at hl
  cases hf : a.paths.arrayFile with
  | none =>
    rw [hf] at hl
    cases hl
  | some file =>
    rw [hf] at hl
    have hmem : ⟨file, directivesText a.components file a.directiveSource⟩ ∈ a.plannedFiles := by
      refine a.arrayFiles_subset ?_
      rw [arrayFiles, hf]
      exact List.mem_singleton_self _
    by_cases hm : a.mode.isPerComponent = true
    · simp only [if_pos hm] at hl
      obtain ⟨c, hc, rfl⟩ := List.mem_map.mp hl
      rw [directiveSource, if_pos hm] at hmem
      refine .ofFiles hmem (writes_arrayClass hc _ _) (wrapperText_mem hm hc) ?_
      exact ModuleLink.target_specifier (h.arrayFile file hf) (h.wrapperFile c)
        (h.endsIn_wrapperFile hc)
    · simp only [if_neg hm] at hl
      obtain rfl := List.mem_singleton.mp hl
      rw [directiveSource, if_neg hm] at hmem
      refine .ofFiles hmem (writes_arrayProxy _ _ _) (proxyText_mem hm) ?_
      exact ModuleLink.target_specifier (h.arrayFile file hf) h.proxyFile h.module

theorem isName_fileName (g : AccessorGroup) : Path.IsName g.fileName := by
  show Path.IsName (g.kind.name ++ "-value-accessor.ts")
  cases g.kind <;> constructor <;> decide

theorem mem_accessorFiles {configs : List AccessorConfig} {g : AccessorGroup} (dir : String)
    (hg : g ∈ AccessorGroup.ofConfigs configs) :
    ⟨Path.join dir [g.fileName], g.source⟩ ∈ ValueAccessor.files configs dir ∧
      ⟨Path.join dir [ValueAccessor.baseFileName], ValueAccessor.baseSource⟩ ∈
        ValueAccessor.files configs dir := by
  unfold ValueAccessor.files
  split
  · rename_i hn
    rw [hn] at hg
    cases hg
  · rename_i first rest hn
    rw [hn] at hg
    exact ⟨List.mem_append_left _ (List.mem_map.mpr ⟨g, hg, rfl⟩),
      List.mem_append_right _ (List.mem_singleton_self _)⟩

theorem closed_accessorLinks (h : a.IsPlaced) :
    ∀ l ∈ a.accessorLinks, l.Closed a.plannedFiles := by
  intro l hl
  obtain ⟨g, hg, rfl⟩ := List.mem_map.mp hl
  obtain ⟨hfile, hbase⟩ := mem_accessorFiles a.paths.proxyDir hg
  refine .ofFiles (a.accessorFiles_subset hfile) (writes_accessor g)
    (a.accessorFiles_subset hbase) ?_
  have ht := ModuleLink.target_sibling h.proxyDir_isAbsolute
    (Path.directory_join_name h.proxyDir_isAbsolute (isName_fileName g)) "value-accessor"
  rwa [show "./" ++ "value-accessor" = "./value-accessor" by decide,
    show "value-accessor" ++ ".ts" = ValueAccessor.baseFileName by decide] at ht

/-- An entry of the export map belongs to a component of the pass. -/
theorem exists_component_of_entry {entry : String × ExportEntry}
    (he : entry ∈ a.exportMap.entries.entries) : ∃ c ∈ a.components, c.tag = entry.2.tag := by
  obtain ⟨c, hc, rfl⟩ := ExportMap.eq_of_mem_ofComponents he
  exact ⟨c, hc, rfl⟩

theorem closed_declarationLinks (h : a.IsPlaced) (hm : a.mode.isPerComponent = true) :
    ∀ l ∈ a.declarationLinks, l.Closed a.plannedFiles := by
  intro l hl
  obtain ⟨entry, he, rfl⟩ := List.mem_map.mp hl
  obtain ⟨c, hc, ht⟩ := exists_component_of_entry he
  have hfile : a.declarations ⊆ a.plannedFiles := declarations_subset hm
  have hw := writes_declaration entry.2
    (Path.resolve (Path.directory a.paths.libraryManifest) entry.2.types) a.paths.componentDir
  refine .ofFiles (hfile (List.mem_map_of_mem he)) hw (wrapperText_mem hm hc) ?_
  rw [← ht]
  exact ModuleLink.target_specifier
    (Path.isAbsolute_resolve h.libraryManifest.directory.isRooted _) (h.wrapperFile c)
    (h.endsIn_wrapperFile hc)

/-- All links of a pass are closed. -/
theorem closed_links (h : a.IsPlaced) : ∀ l ∈ a.links, l.Closed a.plannedFiles := by
  intro l hl
  unfold links at hl
  rcases List.mem_append.mp hl with hl | hl
  · rcases List.mem_append.mp hl with hl | hl
    · rcases List.mem_append.mp hl with hl | hl
      · exact closed_proxyLinks h l hl
      · exact closed_arrayLinks h l hl
    · exact closed_accessorLinks h l hl
  · split at hl
    · rename_i hm
      rcases List.mem_append.mp hl with hl | hl
      · obtain ⟨c, hc, hl⟩ := List.mem_flatMap.mp hl
        exact closed_wrapperLinks h hm hc l hl
      · exact closed_declarationLinks h hm l hl
    · cases hl

/-- Where the types come from makes no link. -/
theorem links_withLocation (a : Assembly) (location : TypeLocation) :
    links { a with location } = a.links := rfl

end Assembly

/-! ## Plans of targets -/

namespace Target

/-- What the files of a pass of a target are generated from, once it is known
what the manifest at the root says about types. -/
def assembly (t : Target) (components : List Component) (config : BuildConfig)
    (types : Option String) : Assembly :=
  ⟨t, t.paths config.rootDir, Component.select t.excluded components,
    .ofTarget t types config.rootDir⟩

/-- The links of a pass, which do not depend on any file that it reads. -/
def links (t : Target) (components : List Component) (config : BuildConfig) : List ModuleLink :=
  (t.assembly components config none).links

theorem assembly_of_plan {t : Target} {view : FileView} {components : List Component}
    {config : BuildConfig} {p : Plan} (h : t.plan view components config = .ok p) :
    ∃ types, t.readTypes view config.rootDir = .ok types ∧
      Plan.ofAssembly (t.assembly components config types) view = .ok p := by
  unfold Target.plan at h
  split at h
  · cases h
  · split at h
    · cases h
    · rename_i types ht
      exact ⟨types, ht, h⟩

variable {t : Target} {components : List Component} {config : BuildConfig}

theorem proxyFile_paths (rootDir : String) :
    (t.paths rootDir).proxyFile = Path.resolve rootDir t.proxyFile := rfl

theorem proxyDir_paths (rootDir : String) :
    (t.paths rootDir).proxyDir = Path.directory (t.paths rootDir).proxyFile := by
  simp only [paths]

theorem componentDir_paths (rootDir : String) :
    (t.paths rootDir).componentDir = (t.componentDir.map (Path.resolve rootDir)).getD
      (Path.join (t.paths rootDir).proxyDir ["components"]) := by
  simp only [paths]
  cases t.componentDir with
  | none => simp only [Option.map_none, Option.getD_none]
  | some dir => simp only [Option.map_some, Option.getD_some]

theorem libraryManifest_paths (rootDir : String) :
    (t.paths rootDir).libraryManifest = (t.libraryManifest.map (Path.resolve rootDir)).getD
      (Path.join (t.paths rootDir).proxyDir ["..", "..", "..", "package.json"]) := by
  simp only [paths]
  cases t.libraryManifest with
  | none => simp only [Option.map_none, Option.getD_none]
  | some path => simp only [Option.map_some, Option.getD_some]

/-- A place that is resolved against a rooted directory, or else stands where
the default does, is absolute when the default is. -/
theorem isAbsolute_getD {rootDir default : String} (hroot : Path.isRooted rootDir = true)
    (hd : Path.IsAbsolute default) (place : Option String) :
    Path.IsAbsolute ((place.map (Path.resolve rootDir)).getD default) := by
  cases place with
  | none => exact hd
  | some path => exact Path.isAbsolute_resolve hroot path

theorem isAbsolute_proxyFile {rootDir : String} (hroot : Path.isRooted rootDir = true) :
    Path.IsAbsolute (t.paths rootDir).proxyFile :=
  Path.isAbsolute_resolve hroot t.proxyFile

theorem isAbsolute_proxyDir {rootDir : String} (hroot : Path.isRooted rootDir = true) :
    Path.IsAbsolute (t.paths rootDir).proxyDir := by
  rw [proxyDir_paths]
  exact (isAbsolute_proxyFile hroot).directory

theorem isAbsolute_componentDir {rootDir : String} (hroot : Path.isRooted rootDir = true) :
    Path.IsAbsolute (t.paths rootDir).componentDir := by
  rw [componentDir_paths]
  exact isAbsolute_getD hroot ((isAbsolute_proxyDir hroot).join _) t.componentDir

theorem isAbsolute_libraryManifest {rootDir : String} (hroot : Path.isRooted rootDir = true) :
    Path.IsAbsolute (t.paths rootDir).libraryManifest := by
  rw [libraryManifest_paths]
  exact isAbsolute_getD hroot ((isAbsolute_proxyDir hroot).join _) t.libraryManifest

theorem isPlaced_assembly (hroot : Path.isRooted config.rootDir = true)
    (hproxy : Path.EndsIn ".ts" (t.paths config.rootDir).proxyFile)
    (htags : ∀ c ∈ Component.select t.excluded components, Assembly.IsFileTag c.tag)
    (types : Option String) : (t.assembly components config types).IsPlaced := by
  refine ⟨isAbsolute_proxyFile hroot, (proxyDir_paths config.rootDir).symm,
    isAbsolute_componentDir hroot, isAbsolute_libraryManifest hroot, ?_, hproxy, htags⟩
  intro file hf
  obtain ⟨path, -, rfl⟩ := Option.map_eq_some_iff.mp hf
  exact Path.isAbsolute_resolve hroot path

/-- Import closure: every relative specifier between the files of a plan leads
from the file it is written in to another file of the plan. -/
theorem closed_links_of_plan {view : FileView} {p : Plan}
    (hroot : Path.isRooted config.rootDir = true)
    (hproxy : Path.EndsIn ".ts" (t.paths config.rootDir).proxyFile)
    (htags : ∀ c ∈ Component.select t.excluded components, Assembly.IsFileTag c.tag)
    (hp : t.plan view components config = .ok p) :
    ∀ l ∈ t.links components config, l.Closed p.files := by
  intro l hl
  obtain ⟨types, -, ha⟩ := assembly_of_plan hp
  rw [Assembly.files_of_ofAssembly ha]
  refine Assembly.closed_links (isPlaced_assembly hroot hproxy htags types) l ?_
  rwa [← Assembly.links_withLocation _ (TypeLocation.ofTarget t none config.rootDir)]

/-- A target with a file of its own for each component and a directives array. -/
def perComponent : Target where
  corePackage := some "core"
  proxyFile := "angular/src/proxies.ts"
  arrayFile := some "angular/lists/array.ts"
  outputType := .standalone
  individualExport := true
  accessors := [⟨.one "my-input", "change", "value", .text⟩]
  libraryManifest := some "angular/package.json"

/-- A build that has the definers of its elements. -/
def repository : BuildConfig := ⟨"/repo", [{ kind := BuildConfig.customElementsKind }]⟩

/-- The only component of a library. -/
def myInput : Component := { tag := "my-input" }

theorem select_myInput : Component.select perComponent.excluded [myInput] = [myInput] := by
  rw [Component.select, Component.sortByTag, List.mergeSort_singleton]
  rfl

theorem last_proxyFile_perComponent :
    (Path.ofText (perComponent.paths repository.rootDir).proxyFile).last = "proxies" ++ ".ts" := by
  rw [proxyFile_paths, Path.resolve, if_neg (by decide), Path.ofText_normalize]
  decide +kernel

theorem closed_links_of_plan_perComponent :
    ∃ p, perComponent.plan (fun _ => .error .missing) [myInput] repository = .ok p ∧
      ∀ l ∈ perComponent.links [myInput] repository, l.Closed p.files := by
  obtain ⟨p, hp⟩ : ∃ p, perComponent.plan (fun _ => .error .missing) [myInput] repository = .ok p :=
    ⟨_, rfl⟩
  have hroot : Path.isRooted repository.rootDir = true := by decide
  have hproxy : Path.EndsIn ".ts" (perComponent.paths repository.rootDir).proxyFile :=
    ⟨"proxies", by decide, last_proxyFile_perComponent⟩
  have htags : ∀ c ∈ Component.select perComponent.excluded [myInput],
      Assembly.IsFileTag c.tag := by
    intro c hc
    rw [select_myInput] at hc
    obtain rfl := List.mem_singleton.mp hc
    exact ⟨by decide, by decide, by decide⟩
  exact ⟨p, hp, closed_links_of_plan hroot hproxy htags hp⟩

end Target

end ElementWrappers
