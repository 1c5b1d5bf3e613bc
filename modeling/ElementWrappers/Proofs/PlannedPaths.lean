import Mathlib
import ElementWrappers.Proofs.ElementTags
import ElementWrappers.Proofs.FailedPass
import ElementWrappers.Proofs.LocalNames

/-!
# Paths of a plan

A target names the places of some files itself; those of all others are derived
from them. Derived files have a directory and a name each, and no two have
both in common, unless a wrapper stands where a value accessor does.
`nodup_plan_paths_iff` says when a plan has each path once; a pass then writes to
each path at most once, and leaves every file of the plan with its own text.
-/

namespace ElementWrappers

/-! ## Files in directories -/

/-- A file as its directory and its name. -/
structure FilePlace where
  dir : String
  name : String
  deriving DecidableEq

namespace FilePlace

def path (f : FilePlace) : String := Path.join f.dir [f.name]

structure IsProper (f : FilePlace) : Prop where
  dir : Path.IsAbsolute f.dir
  name : Path.IsName f.name

theorem IsProper.of {dir name : String} (hd : Path.IsAbsolute dir) (hn : Path.IsName name) :
    IsProper ⟨dir, name⟩ :=
  ⟨hd, hn⟩

theorem eq_of_path_eq {f g : FilePlace} (hf : f.IsProper) (hg : g.IsProper)
    (h : f.path = g.path) : f = g := by
  obtain ⟨hdir, hname⟩ := (Path.join_name_inj hf.dir hg.dir hf.name hg.name).mp h
  cases f
  cases g
  simp_all

/-- Proper places are as distinct as their paths. -/
theorem nodup_paths_iff {places : List FilePlace} (h : ∀ f ∈ places, f.IsProper) :
    (places.map path).Nodup ↔ places.Nodup :=
  ⟨List.Nodup.of_map _, fun hn =>
    hn.map_on fun f hf g hg => eq_of_path_eq (h f hf) (h g hg)⟩

end FilePlace

/-! ## Value accessors -/

namespace AccessorGroup

section AddNew

variable {α : Type} [BEq α] [LawfulBEq α] {items more : List α} {x : α}

theorem addNew_eq : (addNew : List α → α → List α) = addByKey id :=
  funext₂ fun items item => (addByKey_id items item).symm

theorem mem_foldl_addNew_iff : x ∈ more.foldl addNew items ↔ x ∈ items ∨ x ∈ more := by
  rw [addNew_eq, ← List.map_id (List.foldl _ _ _), mem_keys_addAll, List.map_id, List.map_id]

theorem nodup_foldl_addNew (h : items.Nodup) : (more.foldl addNew items).Nodup := by
  rw [addNew_eq, ← List.map_id (List.foldl _ _ _)]
  exact nodup_keys_addAll (by rwa [List.map_id])

end AddNew

theorem kinds_addTo (groups : List AccessorGroup) (c : AccessorConfig) :
    (addTo groups c).map kind = addNew (groups.map kind) c.kind := by
  induction groups with
  | nil => rfl
  | cons g rest ih =>
    rw [addTo, addNew]
    by_cases hk : g.kind = c.kind
    · simp [hk, add]
    · have hne : c.kind ≠ g.kind := Ne.symm hk
      rw [addNew] at ih
      rw [if_neg hk, List.map_cons, ih, List.map_cons]
      by_cases hc : c.kind ∈ rest.map kind
      · simp [hc]
      · simp [hc, hne]

theorem kinds_ofConfigs (configs : List AccessorConfig) :
    (ofConfigs configs).map kind = (configs.map AccessorConfig.kind).foldl addNew [] := by
  rw [List.foldl_map, ofConfigs]
  exact (List.foldl_hom (List.map kind) fun groups c => (kinds_addTo groups c).symm).symm

/-- There is one group of each kind. -/
theorem nodup_kinds_ofConfigs (configs : List AccessorConfig) :
    ((ofConfigs configs).map kind).Nodup :=
  kinds_ofConfigs configs ▸ nodup_foldl_addNew List.nodup_nil

theorem fileName_injective {g g' : AccessorGroup} (h : g.fileName = g'.fileName) :
    g.kind = g'.kind := by
  have h : g.kind.name = g'.kind.name := (String.append_left_inj _).mp h
  revert h
  cases g.kind <;> cases g'.kind <;> decide

end AccessorGroup

namespace ValueAccessor

/-- The names of the files of value accessors. -/
def fileNames (configs : List AccessorConfig) : List String :=
  match AccessorGroup.ofConfigs configs with
  | [] => []
  | g :: rest => (g :: rest).map AccessorGroup.fileName ++ [baseFileName]

variable {configs : List AccessorConfig} {name : String}

theorem paths_files (configs : List AccessorConfig) (dir : String) :
    (files configs dir).map OutputFile.path =
      ((fileNames configs).map (FilePlace.mk dir)).map FilePlace.path := by
  unfold files fileNames
  cases AccessorGroup.ofConfigs configs with
  | nil => rfl
  | cons g rest => simp [FilePlace.path]

theorem mem_fileNames (h : name ∈ fileNames configs) :
    (∃ g : AccessorGroup, g.fileName = name) ∨ name = baseFileName := by
  unfold fileNames at h
  split at h
  · cases h
  · rcases List.mem_append.mp h with h | h
    · obtain ⟨g, -, he⟩ := List.mem_map.mp h
      exact .inl ⟨g, he⟩
    · exact .inr (List.mem_singleton.mp h)

theorem isName_of_mem_fileNames (h : name ∈ fileNames configs) : Path.IsName name := by
  rcases mem_fileNames h with ⟨g, rfl⟩ | rfl
  · exact Assembly.isName_fileName g
  · constructor <;> decide

theorem dash_mem_of_mem_fileNames (h : name ∈ fileNames configs) : '-' ∈ name.toList := by
  rcases mem_fileNames h with ⟨g, rfl⟩ | rfl
  · rw [AccessorGroup.fileName, String.toList_append]
    exact List.mem_append_right _ (by decide)
  · decide

theorem nodup_fileNames (configs : List AccessorConfig) : (fileNames configs).Nodup := by
  unfold fileNames
  split
  · exact List.nodup_nil
  · rename_i g rest he
    have hkinds := AccessorGroup.nodup_kinds_ofConfigs configs
    rw [he] at hkinds
    refine List.nodup_append.mpr ⟨?_, List.nodup_singleton _, ?_⟩
    · refine List.Nodup.map_on (fun a ha b hb h => ?_) hkinds.of_map
      exact List.inj_on_of_nodup_map hkinds ha hb (AccessorGroup.fileName_injective h)
    · intro name hn other ho
      obtain ⟨g', -, rfl⟩ := List.mem_map.mp hn
      rw [List.mem_singleton.mp ho, AccessorGroup.fileName]
      cases g'.kind <;> decide

end ValueAccessor

/-! ## Wrapper files -/

namespace ComponentFiles

/-- The names of the files of wrappers, of the barrel and of the definitions. -/
def names (tags : List String) : List String :=
  tags.map (· ++ ".ts") ++ [barrelName, definitionsName]

theorem mem_names {tags : List String} {name : String} (h : name ∈ names tags) :
    (∃ tag ∈ tags, tag ++ ".ts" = name) ∨ name ∈ [barrelName, definitionsName] :=
  (List.mem_append.mp h).imp_left List.mem_map.mp

theorem dash_notMem : ∀ name ∈ [barrelName, definitionsName], '-' ∉ name.toList := by
  decide

theorem isName_of_mem {name : String} (h : name ∈ [barrelName, definitionsName]) :
    Path.IsName name := by
  rcases List.mem_pair.mp h with rfl | rfl
  · exact Assembly.isName_barrel
  · constructor <;> decide

theorem isName_of_mem_names {tags : List String} (htags : ∀ tag ∈ tags, Naming.IsElementTag tag)
    {name : String} (h : name ∈ names tags) : Path.IsName name := by
  rcases mem_names h with ⟨tag, ht, rfl⟩ | h
  · exact (htags tag ht).isFileTag.isName
  · exact isName_of_mem h

/-- Tags have dashes, so no wrapper is called like the barrel or the definitions. -/
theorem nodup_names {tags : List String} (htags : ∀ tag ∈ tags, Naming.IsElementTag tag)
    (hnodup : tags.Nodup) : (names tags).Nodup := by
  refine List.nodup_append.mpr ⟨?_, by decide, ?_⟩
  · exact hnodup.map fun _ _ h => (String.append_left_inj _).mp h
  · rintro name hn other ho rfl
    obtain ⟨tag, ht, rfl⟩ := List.mem_map.mp hn
    exact dash_notMem _ ho (htags tag ht).dash_mem_fileName

end ComponentFiles

/-! ## Declarations -/

namespace ExportMap

/-- The tags of the entries. -/
def tags (m : ExportMap) : List String := m.entries.entries.map fun entry => entry.2.tag

variable {components : List Component} {exportSubpath tag : String}

theorem exists_component_of_mem_tags (h : tag ∈ (ofComponents components exportSubpath).tags) :
    ∃ c ∈ components, c.tag = tag := by
  obtain ⟨entry, he, rfl⟩ := List.mem_map.mp h
  obtain ⟨c, hc, rfl⟩ := eq_of_mem_ofComponents he
  exact ⟨c, hc, rfl⟩

theorem nodup_tags_ofComponents (components : List Component) (exportSubpath : String) :
    (ofComponents components exportSubpath).tags.Nodup := by
  have hkeys : (ofComponents components exportSubpath).entries.entries.keys =
      (ofComponents components exportSubpath).tags.map (key (trimSlashes exportSubpath)) := by
    rw [tags, List.map_map]
    refine List.map_congr_left fun entry he => ?_
    obtain ⟨c, -, rfl⟩ := eq_of_mem_ofComponents he
    rfl
  exact .of_map _ (hkeys ▸ (ofComponents components exportSubpath).entries.distinct)

/-- The name of the file that an entry takes its types from. -/
def declarationName : String := "index.d.ts"

theorem isName_declaration : Path.IsName declarationName := by
  constructor <;> decide

/-- Where an entry takes its types from. -/
def declarationPlace (libraryRoot subpath tag : String) : FilePlace :=
  ⟨Path.join (Path.join libraryRoot ["./" ++ subpath]) [tag], declarationName⟩

theorem isProper_declarationPlace {libraryRoot : String} (h : Path.IsAbsolute libraryRoot)
    (subpath tag : String) : (declarationPlace libraryRoot subpath tag).IsProper := by
  have hdir : Path.IsAbsolute (Path.join (Path.join libraryRoot ["./" ++ subpath]) [tag]) :=
    (h.join _).join _
  exact .of hdir isName_declaration

theorem path_declarationPlace {libraryRoot : String} (h : Path.IsAbsolute libraryRoot)
    (subpath tag : String) :
    (declarationPlace libraryRoot subpath tag).path =
      Path.resolve libraryRoot (ExportEntry.ofTag subpath tag).types := by
  have htypes : (ExportEntry.ofTag subpath tag).types =
      "./" ++ subpath ++ "/" ++ tag ++ ("/" ++ declarationName) := by
    rw [show "/" ++ declarationName = "/index.d.ts" by decide]
    rfl
  have hrooted : Path.isRooted ("./" ++ subpath ++ "/" ++ tag ++ ("/" ++ declarationName)) =
      false := by
    simp only [String.append_assoc]
    exact Path.isRooted_append (by decide) _
  have hjoin : Path.join libraryRoot ["./" ++ subpath, tag, declarationName] =
      Path.normalize
        (libraryRoot ++ "/" ++ ("./" ++ subpath) ++ "/" ++ tag ++ "/" ++ declarationName) := rfl
  rw [FilePlace.path, declarationPlace, (h.join _).join_join, h.join_join, htypes, Path.resolve,
    if_neg (by rw [hrooted]; decide)]
  show Path.join libraryRoot ["./" ++ subpath, tag, declarationName] = _
  rw [hjoin]
  simp only [String.append_assoc]

theorem paths_declarations {libraryRoot : String} (h : Path.IsAbsolute libraryRoot)
    (components : List Component) (exportSubpath componentDir : String) :
    ((ofComponents components exportSubpath).declarations libraryRoot componentDir).map
        OutputFile.path =
      ((ofComponents components exportSubpath).tags.map
        (declarationPlace libraryRoot (trimSlashes exportSubpath))).map FilePlace.path := by
  have hfile : ∀ entry ∈ (ofComponents components exportSubpath).entries.entries,
      Path.resolve libraryRoot entry.2.types =
        (declarationPlace libraryRoot (trimSlashes exportSubpath) entry.2.tag).path := by
    intro entry he
    obtain ⟨c, -, rfl⟩ := eq_of_mem_ofComponents he
    exact (path_declarationPlace h (trimSlashes exportSubpath) c.tag).symm
  rw [declarations, tags, List.map_map, List.map_map, List.map_map]
  refine List.map_congr_left fun entry he => ?_
  rw [Function.comp_apply, Function.comp_apply, Function.comp_apply]
  exact hfile entry he

end ExportMap

namespace Assembly

variable {a : Assembly} {view : FileView} {p : Plan}

/-! ## Named and derived files -/

/-- The files that a target names itself, or leaves at their defaults. -/
def namedFiles (a : Assembly) : List String :=
  a.paths.proxyFile :: a.paths.arrayFile.toList ++
    if a.mode.isPerComponent then [a.paths.libraryManifest] else []

/-- The files that a pass finds a place for. -/
def derivedFiles (a : Assembly) : List String :=
  a.supportFile ::
    ((ValueAccessor.files a.target.accessors a.paths.proxyDir).map OutputFile.path ++
      if a.mode.isPerComponent then
        a.components.map a.wrapperFile ++
          [a.barrelFile, Path.join a.paths.componentDir [ComponentFiles.definitionsName]] ++
          a.declarations.map OutputFile.path
      else [])

/-- A plan has the named files and the derived ones. -/
theorem perm_paths (h : Plan.ofAssembly a view = .ok p) :
    (p.allFiles.map OutputFile.path).Perm (a.namedFiles ++ a.derivedFiles) := by
  have harray : a.arrayFiles.map OutputFile.path = a.paths.arrayFile.toList := by
    unfold arrayFiles
    cases a.paths.arrayFile <;> rfl
  have hcomponents : (ComponentFiles.files a.wrappers a.paths.componentDir a.supportFile
        a.typeModule).map OutputFile.path =
      a.components.map a.wrapperFile ++
        [a.barrelFile, Path.join a.paths.componentDir [ComponentFiles.definitionsName]] := by
    rw [ComponentFiles.files, List.map_append, List.map_map, wrappers, List.map_map]
    rfl
  obtain ⟨-, hfiles, hmanifest⟩ := eq_of_ofAssembly h
  rw [Plan.allFiles, List.map_append, ← Option.toList_map, hmanifest, hfiles, plannedFiles, files,
    wrapperFiles, namedFiles, derivedFiles]
  simp only [List.map_append, harray]
  refine List.perm_iff_count.mpr fun path => ?_
  split
  · simp only [hcomponents, Option.toList_some, List.map_cons, List.map_nil, List.count_append,
      List.count_cons, List.count_nil]
    omega
  · simp only [Option.toList_none, List.map_cons, List.map_nil, List.count_append, List.count_cons,
      List.count_nil]
    omega

/-- The wrapper files, the barrel and the definitions by their names. -/
theorem componentPaths_eq (a : Assembly) :
    a.components.map a.wrapperFile ++
        [a.barrelFile, Path.join a.paths.componentDir [ComponentFiles.definitionsName]] =
      (ComponentFiles.names (a.components.map Component.tag)).map fun name =>
        Path.join a.paths.componentDir [name] := by
  simp only [ComponentFiles.names, List.map_append, List.map_map]
  rfl

theorem exists_component_of_declaration {f : OutputFile} (h : f ∈ a.declarations) :
    ∃ c ∈ a.components, f.path = Path.resolve (Path.directory a.paths.libraryManifest)
      (ExportEntry.ofTag (ExportMap.trimSlashes a.target.exportSubpath) c.tag).types := by
  obtain ⟨entry, hentry, he⟩ := List.mem_map.mp h
  obtain ⟨c, hc, ht⟩ := ExportMap.eq_of_mem_ofComponents hentry
  refine ⟨c, hc, ?_⟩
  rw [← he, ht]

/-- What holds of the places that a target names, and of those that are derived
from them, holds of all paths of a plan. -/
theorem forall_paths {P : String → Prop} (h : Plan.ofAssembly a view = .ok p)
    (hnamed : ∀ file ∈ a.namedFiles, P file) (hsupport : P a.supportFile)
    (haccessors : ∀ name ∈ ValueAccessor.fileNames a.target.accessors,
      P (Path.join a.paths.proxyDir [name]))
    (hcomponents : ∀ name ∈ ComponentFiles.names (a.components.map Component.tag),
      P (Path.join a.paths.componentDir [name]))
    (hdeclarations : ∀ c ∈ a.components, P (Path.resolve (Path.directory a.paths.libraryManifest)
      (ExportEntry.ofTag (ExportMap.trimSlashes a.target.exportSubpath) c.tag).types)) :
    ∀ f ∈ p.allFiles, P f.path := by
  intro f hf
  have hpath := (perm_paths h).subset (List.mem_map_of_mem hf)
  generalize f.path = path at hpath
  rcases List.mem_append.mp hpath with hm | hm
  · exact hnamed path hm
  rw [derivedFiles, ValueAccessor.paths_files, componentPaths_eq] at hm
  rcases List.mem_cons.mp hm with rfl | hm
  · exact hsupport
  rcases List.mem_append.mp hm with hm | hm
  · obtain ⟨place, hplace, rfl⟩ := List.mem_map.mp hm
    obtain ⟨name, hn, rfl⟩ := List.mem_map.mp hplace
    exact haccessors name hn
  · split at hm
    · rcases List.mem_append.mp hm with hm | hm
      · obtain ⟨name, hn, rfl⟩ := List.mem_map.mp hm
        exact hcomponents name hn
      · obtain ⟨d, hd, rfl⟩ := List.mem_map.mp hm
        obtain ⟨c, hc, he⟩ := exists_component_of_declaration hd
        rw [he]
        exact hdeclarations c hc
    · cases hm

/-! ## Places of derived files -/

/-- Directories that are absolute, and tags of custom elements, each once. -/
structure IsLocated (a : Assembly) : Prop where
  proxyDir : Path.IsAbsolute a.paths.proxyDir
  componentDir : Path.IsAbsolute a.paths.componentDir
  libraryManifest : Path.IsAbsolute a.paths.libraryManifest
  tags : ∀ c ∈ a.components, Naming.IsElementTag c.tag
  nodup : (a.components.map Component.tag).Nodup

def supportPlace (a : Assembly) : FilePlace :=
  ⟨Path.join a.paths.proxyDir [Support.directory], Support.fileName⟩

theorem isName_support : Path.IsName Support.fileName := by
  constructor <;> decide

def accessorPlaces (a : Assembly) : List FilePlace :=
  (ValueAccessor.fileNames a.target.accessors).map (FilePlace.mk a.paths.proxyDir)

def componentPlaces (a : Assembly) : List FilePlace :=
  (ComponentFiles.names (a.components.map Component.tag)).map (FilePlace.mk a.paths.componentDir)

def declarationPlaces (a : Assembly) : List FilePlace :=
  a.exportMap.tags.map (ExportMap.declarationPlace (Path.directory a.paths.libraryManifest)
    (ExportMap.trimSlashes a.target.exportSubpath))

/-- The places of all derived files. -/
def places (a : Assembly) : List FilePlace :=
  a.supportPlace :: (a.accessorPlaces ++
    if a.mode.isPerComponent then a.componentPlaces ++ a.declarationPlaces else [])

theorem IsLocated.derivedFiles_eq (h : a.IsLocated) :
    a.derivedFiles = a.places.map FilePlace.path := by
  have hsupport : a.supportFile = a.supportPlace.path :=
    (h.proxyDir.join_join [Support.directory] [Support.fileName]).symm
  have hcomponents : a.componentPlaces.map FilePlace.path =
      (ComponentFiles.names (a.components.map Component.tag)).map fun name =>
        Path.join a.paths.componentDir [name] :=
    List.map_map
  have hdeclarations : a.declarations.map OutputFile.path =
      a.declarationPlaces.map FilePlace.path :=
    ExportMap.paths_declarations h.libraryManifest.directory _ _ _
  rw [derivedFiles, places, List.map_cons, hsupport, List.map_append, ValueAccessor.paths_files,
    componentPaths_eq, hdeclarations]
  split
  · rw [List.map_append, hcomponents]
    rfl
  · rfl

theorem IsLocated.isElementTag (h : a.IsLocated) :
    ∀ tag ∈ a.components.map Component.tag, Naming.IsElementTag tag := by
  intro tag ht
  obtain ⟨c, hc, rfl⟩ := List.mem_map.mp ht
  exact h.tags c hc

theorem IsLocated.isProper (h : a.IsLocated) : ∀ f ∈ a.places, f.IsProper := by
  intro f hf
  rcases List.mem_cons.mp hf with rfl | hf
  · exact .of (h.proxyDir.join _) isName_support
  · rcases List.mem_append.mp hf with hf | hf
    · obtain ⟨name, hn, rfl⟩ := List.mem_map.mp hf
      exact .of h.proxyDir (ValueAccessor.isName_of_mem_fileNames hn)
    · split at hf
      · rcases List.mem_append.mp hf with hf | hf
        · obtain ⟨name, hn, rfl⟩ := List.mem_map.mp hf
          exact .of h.componentDir (ComponentFiles.isName_of_mem_names h.isElementTag hn)
        · obtain ⟨tag, -, rfl⟩ := List.mem_map.mp hf
          exact ExportMap.isProper_declarationPlace h.libraryManifest.directory _ _
      · cases hf

theorem nodup_accessorPlaces (a : Assembly) : a.accessorPlaces.Nodup :=
  (ValueAccessor.nodup_fileNames _).map fun _ _ h => (FilePlace.mk.inj h).2

theorem IsLocated.nodup_componentPlaces (h : a.IsLocated) : a.componentPlaces.Nodup :=
  (ComponentFiles.nodup_names h.isElementTag h.nodup).map fun _ _ he => (FilePlace.mk.inj he).2

theorem IsLocated.nodup_declarationPlaces (h : a.IsLocated) : a.declarationPlaces.Nodup := by
  refine (ExportMap.nodup_tags_ofComponents _ _).map_on fun tag ht other ho he => ?_
  have hname : ∀ tag ∈ a.exportMap.tags, Path.IsName tag := by
    intro tag ht
    obtain ⟨c, hc, rfl⟩ := ExportMap.exists_component_of_mem_tags ht
    exact (h.tags c hc).isName
  have hroot := h.libraryManifest.directory.join
    ["./" ++ ExportMap.trimSlashes a.target.exportSubpath]
  exact ((Path.join_name_inj hroot hroot (hname tag ht) (hname other ho)).mp
    (FilePlace.mk.inj he).1).2

variable {f : FilePlace}

theorem dash_mem_of_mem_accessorPlaces (hf : f ∈ a.accessorPlaces) : '-' ∈ f.name.toList := by
  obtain ⟨name, hn, rfl⟩ := List.mem_map.mp hf
  exact ValueAccessor.dash_mem_of_mem_fileNames hn

theorem IsLocated.name_of_mem_componentPlaces (h : a.IsLocated) (hf : f ∈ a.componentPlaces) :
    '-' ∈ f.name.toList ∨
      f.name ∈ [ComponentFiles.barrelName, ComponentFiles.definitionsName] := by
  obtain ⟨name, hn, rfl⟩ := List.mem_map.mp hf
  refine (ComponentFiles.mem_names hn).imp_left ?_
  rintro ⟨tag, ht, rfl⟩
  exact (h.isElementTag tag ht).dash_mem_fileName

theorem name_of_mem_declarationPlaces (hf : f ∈ a.declarationPlaces) :
    f.name = ExportMap.declarationName := by
  obtain ⟨tag, -, rfl⟩ := List.mem_map.mp hf
  rfl

theorem IsLocated.supportPlace_notMem (h : a.IsLocated) :
    a.supportPlace ∉ a.accessorPlaces ++
      if a.mode.isPerComponent then a.componentPlaces ++ a.declarationPlaces else [] := by
  intro hm
  rcases List.mem_append.mp hm with hm | hm
  · exact absurd (dash_mem_of_mem_accessorPlaces hm)
      (show '-' ∉ Support.fileName.toList by decide)
  · split at hm
    · rcases List.mem_append.mp hm with hm | hm
      · exact absurd (h.name_of_mem_componentPlaces hm)
          (show ¬ ('-' ∈ Support.fileName.toList ∨ Support.fileName ∈ [_, _]) by decide)
      · exact absurd (name_of_mem_declarationPlaces hm)
          (show Support.fileName ≠ ExportMap.declarationName by decide)
    · cases hm

theorem ne_of_mem_accessorPlaces {g : FilePlace} (hf : f ∈ a.accessorPlaces)
    (hg : g ∈ a.declarationPlaces) : f ≠ g := by
  rintro rfl
  have hd := dash_mem_of_mem_accessorPlaces hf
  rw [name_of_mem_declarationPlaces hg] at hd
  exact absurd hd (by decide)

theorem IsLocated.ne_of_mem_componentPlaces {g : FilePlace} (h : a.IsLocated)
    (hf : f ∈ a.componentPlaces) (hg : g ∈ a.declarationPlaces) : f ≠ g := by
  rintro rfl
  have hn := h.name_of_mem_componentPlaces hf
  rw [name_of_mem_declarationPlaces hg] at hn
  exact absurd hn (by decide)

/-- No wrapper file stands where a value accessor does. -/
def HasFreeAccessors (a : Assembly) : Prop :=
  a.mode.isPerComponent = true → a.paths.componentDir = a.paths.proxyDir →
    ∀ c ∈ a.components, c.tag ++ ".ts" ∉ ValueAccessor.fileNames a.target.accessors

theorem IsLocated.nodup_places_iff (h : a.IsLocated) : a.places.Nodup ↔ a.HasFreeAccessors := by
  rw [places, List.nodup_cons, and_iff_right h.supportPlace_notMem]
  by_cases hm : a.mode.isPerComponent = true
  · rw [if_pos hm, List.nodup_append, List.nodup_append]
    constructor
    · rintro ⟨-, -, hne⟩ - hdir c hc hname
      refine hne ⟨a.paths.proxyDir, c.tag ++ ".ts"⟩ (List.mem_map_of_mem hname) _
        (List.mem_append_left _ ?_) rfl
      rw [← hdir]
      exact List.mem_map_of_mem (List.mem_append_left _
        (List.mem_map_of_mem (List.mem_map_of_mem hc)))
    · intro hfree
      refine ⟨a.nodup_accessorPlaces, ⟨h.nodup_componentPlaces, h.nodup_declarationPlaces,
        fun f hf g hg => h.ne_of_mem_componentPlaces hf hg⟩, fun f hf g hg => ?_⟩
      rcases List.mem_append.mp hg with hg | hg
      · rintro rfl
        have hdash := dash_mem_of_mem_accessorPlaces hf
        obtain ⟨name, hn, rfl⟩ := List.mem_map.mp hf
        obtain ⟨other, ho, he⟩ := List.mem_map.mp hg
        obtain ⟨hdir, rfl⟩ := FilePlace.mk.inj he
        rcases ComponentFiles.mem_names ho with ⟨tag, ht, rfl⟩ | ho
        · obtain ⟨c, hc, rfl⟩ := List.mem_map.mp ht
          exact hfree hm hdir c hc hn
        · exact absurd hdash (ComponentFiles.dash_notMem _ ho)
      · exact ne_of_mem_accessorPlaces hf hg
  · rw [if_neg hm, List.append_nil]
    exact ⟨fun _ hm' => absurd hm' hm, fun _ => a.nodup_accessorPlaces⟩

/-- All places that a target names itself are different, and none of them is
taken by a derived file; nor does a wrapper take the place of a value accessor. -/
structure IsApart (a : Assembly) : Prop where
  named : a.namedFiles.Nodup
  derived : ∀ path ∈ a.namedFiles, path ∉ a.derivedFiles
  accessors : a.HasFreeAccessors

theorem IsLocated.nodup_paths_iff (h : a.IsLocated) (hp : Plan.ofAssembly a view = .ok p) :
    (p.allFiles.map OutputFile.path).Nodup ↔ a.IsApart := by
  have hderived : a.derivedFiles.Nodup ↔ a.HasFreeAccessors := by
    rw [h.derivedFiles_eq, FilePlace.nodup_paths_iff h.isProper, h.nodup_places_iff]
  rw [(perm_paths hp).nodup_iff, List.nodup_append, hderived]
  constructor
  · rintro ⟨hnamed, hfree, hne⟩
    exact ⟨hnamed, fun path hn hd => hne path hn path hd rfl, hfree⟩
  · rintro ⟨hnamed, hd, hfree⟩
    refine ⟨hnamed, hfree, ?_⟩
    rintro path hn other ho rfl
    exact hd path hn ho

/-- Where the types come from moves no file. -/
theorem isApart_withLocation (location : TypeLocation) :
    IsApart { a with location } ↔ a.IsApart :=
  ⟨fun h => ⟨h.named, h.derived, h.accessors⟩, fun h => ⟨h.named, h.derived, h.accessors⟩⟩

end Assembly

/-! ## Plans and passes -/

namespace Target

variable {t : Target} {view : FileView} {components : List Component} {config : BuildConfig}
  {p : Plan} {s s' : Store} {r : Except PassError Plan}

theorem isLocated_assembly (hroot : Path.isRooted config.rootDir = true)
    (htags : ∀ c ∈ components, Naming.IsElementTag c.tag) (types : Option String) :
    (t.assembly components config types).IsLocated where
  proxyDir := isAbsolute_proxyDir hroot
  componentDir := isAbsolute_componentDir hroot
  libraryManifest := isAbsolute_libraryManifest hroot
  tags := fun c hc => htags c (Component.mem_of_mem_select hc)
  nodup := Component.nodup_tags_select

/-- What holds of all places of a target holds of all paths of its plan. -/
theorem forall_paths_of_plan {P : String → Prop} (hp : t.plan view components config = .ok p)
    (hproxy : P (t.paths config.rootDir).proxyFile)
    (harray : ∀ path, t.arrayFile = some path → P (Path.resolve config.rootDir path))
    (hmanifest : P (t.paths config.rootDir).libraryManifest)
    (hsupport : P (ProxyFile.supportFile (t.paths config.rootDir)))
    (haccessors : ∀ name ∈ ValueAccessor.fileNames t.accessors,
      P (Path.join (t.paths config.rootDir).proxyDir [name]))
    (hcomponents : ∀ name ∈
      ComponentFiles.names ((Component.select t.excluded components).map Component.tag),
        P (Path.join (t.paths config.rootDir).componentDir [name]))
    (hdeclarations : ∀ c ∈ Component.select t.excluded components,
      P (Path.resolve (Path.directory (t.paths config.rootDir).libraryManifest)
        (ExportEntry.ofTag (ExportMap.trimSlashes t.exportSubpath) c.tag).types)) :
    ∀ f ∈ p.allFiles, P f.path := by
  obtain ⟨types, -, ha⟩ := assembly_of_plan hp
  refine Assembly.forall_paths ha ?_ hsupport haccessors hcomponents hdeclarations
  intro file hf
  rcases List.mem_append.mp hf with hf | hf
  · rcases List.mem_cons.mp hf with rfl | hf
    · exact hproxy
    · obtain ⟨path, hpath, rfl⟩ := Option.map_eq_some_iff.mp (Option.mem_toList.mp hf)
      exact harray path hpath
  · split at hf
    · rw [List.mem_singleton.mp hf]
      exact hmanifest
    · cases hf

/-- The places of a target are apart; no file that is read matters. -/
def IsApart (t : Target) (components : List Component) (config : BuildConfig) : Prop :=
  (t.assembly components config none).IsApart

/-- A pass attempts each file of its plan at most once. -/
theorem Passes.exists_attempts (made : t.Passes components config s r s')
    (hp : t.plan s.read components config = .ok p) :
    ∃ attempts : List String, attempts.Subperm (p.allFiles.map OutputFile.path) ∧
      s'.log = s.log ++ attempts := by
  rw [Plan.allFiles, List.map_append]
  -- Both batches log their own part of the plan.
  have hboth : ∀ {s₁ : Store} {r₁ r₂ : Except PassError Unit}, Batch p.files s r₁ s₁ →
      Batch p.manifest.toList s₁ r₂ s' → ∃ attempts : List String,
        attempts.Subperm (p.files.map OutputFile.path ++ p.manifest.toList.map OutputFile.path) ∧
          s'.log = s.log ++ attempts := by
    intro s₁ r₁ r₂ files manifest
    obtain ⟨first, hfirst, hlog⟩ := files.exists_attempts
    obtain ⟨last, hlast, hlog'⟩ := manifest.exists_attempts
    exact ⟨first ++ last, hfirst.append hlast, by rw [hlog', hlog, List.append_assoc]⟩
  cases made with
  | refused plan => cases plan.symm.trans hp
  | broken plan files =>
    obtain rfl := Except.ok.inj (plan.symm.trans hp)
    obtain ⟨attempts, ha, hlog⟩ := files.exists_attempts
    exact ⟨attempts, ha.trans (List.sublist_append_left _ _).subperm, hlog⟩
  | unregistered plan files manifest =>
    obtain rfl := Except.ok.inj (plan.symm.trans hp)
    exact hboth files manifest
  | completed plan files manifest =>
    obtain rfl := Except.ok.inj (plan.symm.trans hp)
    exact hboth files manifest

/-- A pass that succeeds leaves each file of its plan with its own text, where
the plan has each path once. -/
theorem Passes.get?_of_ok (made : t.Passes components config s (.ok p) s')
    (hn : (p.allFiles.map OutputFile.path).Nodup) {f : OutputFile} (hf : f ∈ p.allFiles) :
    s'.files.get? f.path = some f.content := by
  rw [Plan.allFiles, List.map_append, List.nodup_append] at hn
  obtain ⟨hfiles, hmanifest, hne⟩ := hn
  cases made with
  | completed plan files manifest =>
    rcases Plan.mem_allFiles.mp hf with hf | hf
    · refine (manifest.untouched fun m hm he => ?_).1.trans (files.get?_of_ok hfiles hf)
      exact hne _ (List.mem_map_of_mem hf) _ (List.mem_map_of_mem hm) he.symm
    · exact manifest.get?_of_ok hmanifest hf

/-- A plan has each path once exactly when the places of the target are apart.
Then a pass attempts no path twice, and one that succeeds leaves each file of
the plan with its own text. -/
theorem nodup_plan_paths_iff (hroot : Path.isRooted config.rootDir = true)
    (htags : ∀ c ∈ components, Naming.IsElementTag c.tag)
    (hp : t.plan view components config = .ok p) :
    ((p.allFiles.map OutputFile.path).Nodup ↔ t.IsApart components config) ∧
      ((p.allFiles.map OutputFile.path).Nodup → ∀ s r s', s.read = view →
        t.Passes components config s r s' →
          (∃ attempts : List String, attempts.Nodup ∧ s'.log = s.log ++ attempts) ∧
            (r = .ok p → ∀ f ∈ p.allFiles, s'.files.get? f.path = some f.content)) := by
  obtain ⟨types, -, ha⟩ := assembly_of_plan hp
  refine ⟨?_, ?_⟩
  · rw [(isLocated_assembly hroot htags types).nodup_paths_iff ha]
    exact Assembly.isApart_withLocation (a := t.assembly components config none) _
  · rintro hn s r s' rfl made
    refine ⟨?_, ?_⟩
    · obtain ⟨attempts, ⟨part, hperm, hsub⟩, hlog⟩ := made.exists_attempts hp
      exact ⟨attempts, hperm.nodup_iff.mp (hn.sublist hsub), hlog⟩
    · rintro rfl f hf
      exact made.get?_of_ok hn hf

theorem nodup_plan_paths_iff_perComponent :
    ∃ p s', perComponent.plan ({} : Store).read [myInput] repository = .ok p ∧
      perComponent.IsApart [myInput] repository ∧
      perComponent.Passes [myInput] repository {} (.ok p) s' ∧
      ∀ f ∈ p.allFiles, s'.files.get? f.path = some f.content := by
  obtain ⟨p, hp⟩ : ∃ p, perComponent.plan ({} : Store).read [myInput] repository = .ok p :=
    ⟨_, rfl⟩
  have htags : ∀ c ∈ [myInput], Naming.IsElementTag c.tag := by decide
  obtain ⟨hiff, hpass⟩ := nodup_plan_paths_iff (by decide) htags hp
  have made := passes_run perComponent [myInput] repository {}
  have hr : ((perComponent.pass [myInput] repository).run ({} : Store)).1 = .ok p := by
    refine made.ok_iff.mpr ⟨hp, fun f _ hf => ?_⟩
    cases hf
  have hn : (p.allFiles.map OutputFile.path).Nodup := by
    cases hp
    decide +kernel
  rw [hr] at made
  exact ⟨p, _, hp, hiff.mp hn, made, (hpass hn _ _ _ rfl made).2 rfl⟩

/-- A target whose array file is its proxy file. -/
def overlaid : Target := { aggregate with arrayFile := some "angular/src/proxies.ts" }

/-- A target whose proxy file is the barrel of its wrapper files. -/
def indexed : Target :=
  { perComponent with proxyFile := "angular/src/index.ts", componentDir := some "angular/src" }

/-- A target whose wrapper files stand beside its value accessors. -/
def crowded : Target := { perComponent with componentDir := some "angular/src" }

/-- A component that is called like a value accessor. -/
def textAccessor : Component := { tag := "text-value-accessor" }

theorem not_nodup_plan_paths :
    Path.isRooted repository.rootDir = true ∧
    (∀ c ∈ [myInput, textAccessor], Naming.IsElementTag c.tag) ∧
    (∃ p, overlaid.plan (fun _ => .error .missing) [myInput] repository = .ok p ∧
      ¬ (p.allFiles.map OutputFile.path).Nodup) ∧
    (∃ p, indexed.plan (fun _ => .error .missing) [myInput] repository = .ok p ∧
      ¬ (p.allFiles.map OutputFile.path).Nodup) ∧
    (∃ p, crowded.plan (fun _ => .error .missing) [textAccessor] repository = .ok p ∧
      ¬ (p.allFiles.map OutputFile.path).Nodup) := by
  refine ⟨by decide, by decide, ⟨_, rfl, ?_⟩, ⟨_, rfl, ?_⟩, ⟨_, rfl, ?_⟩⟩
  · decide +kernel
  · decide +kernel
  · decide +kernel

end Target

end ElementWrappers
