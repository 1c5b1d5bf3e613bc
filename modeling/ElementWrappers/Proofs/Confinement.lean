import Mathlib
import ElementWrappers.Proofs.NormalForm
import ElementWrappers.Proofs.PlannedPaths

/-!
# Files below the root

A step leads up by one level at most, and any other segment than `..` never does.
So places that are named relative to the root, and the places that are derived from
them, stay below it; only the default place of the manifest lies three levels
above the proxy directory. `liesBelow_of_plan` says it for every file of a plan.
-/

namespace ElementWrappers

namespace Path

/-! ## Levels -/

/-- `p` is at least `levels` levels below `root`. -/
def IsUnder (levels : Nat) (root p : Path) : Prop :=
  ∃ names, levels ≤ names.length ∧ p = ⟨root.start, root.names ++ names⟩

section Levels

variable {levels : Nat} {root p : Path} {s : String}

theorem IsUnder.refl (root : Path) : IsUnder 0 root root :=
  ⟨[], Nat.le_refl 0, by rw [List.append_nil]⟩

theorem IsUnder.mono {fewer : Nat} (h : IsUnder levels root p) (hle : fewer ≤ levels) :
    IsUnder fewer root p := by
  obtain ⟨names, hl, he⟩ := h
  exact ⟨names, hle.trans hl, he⟩

/-- A name leads one level down. -/
theorem IsUnder.concat (h : IsUnder levels root p) (s : String) :
    IsUnder (levels + 1) root ⟨p.start, p.names ++ [s]⟩ := by
  obtain ⟨names, hl, rfl⟩ := h
  refine ⟨names ++ [s], ?_, by rw [List.append_assoc]⟩
  rw [List.length_append, List.length_singleton]
  exact Nat.succ_le_succ hl

/-- Without its last name, a place is at most one level higher. -/
theorem IsUnder.dropLast {init : List String} {last : String} (h : IsUnder (levels + 1) root p)
    (hn : p.names = init ++ [last]) : IsUnder levels root ⟨p.start, init⟩ := by
  obtain ⟨names, hl, rfl⟩ := h
  rcases List.eq_nil_or_concat' names with rfl | ⟨front, name, rfl⟩
  · exact absurd hl (Nat.not_succ_le_zero levels)
  · rw [← List.append_assoc] at hn
    obtain ⟨rfl, -⟩ := List.append_inj' hn rfl
    rw [List.length_append, List.length_singleton] at hl
    exact ⟨front, Nat.le_of_succ_le_succ hl, rfl⟩

theorem IsUnder.names_ne_nil (h : IsUnder (levels + 1) root p) : p.names ≠ [] := by
  obtain ⟨names, hl, rfl⟩ := h
  rintro he
  rw [(List.append_eq_nil_iff.mp he).2] at hl
  exact absurd hl (Nat.not_succ_le_zero levels)

/-- No step leads up by more than one level. -/
theorem IsUnder.step (h : IsUnder (levels + 1) root p) (s : String) :
    IsUnder levels root (p.step s) := by
  rcases step_cases p s with ⟨-, he⟩ | ⟨-, hn, -⟩ | ⟨-, init, last, hn, he⟩ | ⟨-, -, -, he⟩
  · rw [he]
    exact h.mono (Nat.le_succ levels)
  · exact absurd hn h.names_ne_nil
  · rw [he]
    exact h.dropLast hn
  · rw [he]
    exact (h.concat s).mono (by omega)

/-- A walk that nowhere leads up gets down by as many levels as it takes steps. -/
theorem IsUnder.walk (h : IsUnder levels root p) {segments : List String}
    (hs : ".." ∉ segments) :
    IsUnder (levels + (segments.filter fun s => s ≠ "" ∧ s ≠ ".").length) root
      (p.walk segments) := by
  induction segments generalizing levels p with
  | nil => exact h
  | cons s rest ih =>
    obtain ⟨hne, hrest⟩ := not_or.mp fun h => hs (List.mem_cons.mpr h)
    rw [walk_cons]
    rcases step_cases p s with ⟨hidle, he⟩ | ⟨hd, -⟩ | ⟨hd, -⟩ | ⟨hempty, hdot, -, he⟩
    · rw [he, List.filter_cons_of_neg (by grind)]
      exact ih h hrest
    · exact absurd hd.symm hne
    · exact absurd hd.symm hne
    · rw [he, List.filter_cons_of_pos (by simp [hempty, hdot]), List.length_cons]
      exact (ih (h.concat s) hrest).mono (by omega)

end Levels

/-- `text` leads to a place at least `levels` levels below that of `root`. -/
def LiesBelow (levels : Nat) (root text : String) : Prop :=
  IsUnder levels (ofText root) (ofText text)

/-- A text that is not rooted and nowhere leads up. -/
structure IsInner (text : String) : Prop where
  relative : isRooted text = false
  no_dots : ".." ∉ segmentsOf text

/-- An inner text that leads further than the directory it is seen from. -/
structure IsInnerFile (text : String) : Prop extends IsInner text where
  ne_here : normalize text ≠ "."

section LiesBelow

variable {levels : Nat} {root dir text : String}

theorem LiesBelow.refl (root : String) : LiesBelow 0 root root := IsUnder.refl _

theorem LiesBelow.mono {fewer : Nat} (h : LiesBelow levels root text) (hle : fewer ≤ levels) :
    LiesBelow fewer root text :=
  IsUnder.mono h hle

theorem LiesBelow.directory (h : LiesBelow (levels + 1) root text) :
    LiesBelow levels root (directory text) := by
  unfold LiesBelow at h ⊢
  rw [ofText_directory, parent]
  split
  · rename_i hn
    exact absurd hn h.names_ne_nil
  · obtain ⟨init, last, hn⟩ := (List.eq_nil_or_concat' (ofText text).names).resolve_left
      h.names_ne_nil
    rw [hn, List.dropLast_concat]
    exact h.dropLast hn

/-- What is joined without leading up stays below. -/
theorem LiesBelow.join (h : LiesBelow levels root dir) (hd : dir ≠ "") {further : List String}
    (hs : ∀ t ∈ further, ".." ∉ segmentsOf t) : LiesBelow levels root (join dir further) := by
  unfold LiesBelow
  rw [ofText_join hd]
  refine (IsUnder.walk h fun hm => ?_).mono (Nat.le_add_right levels _)
  obtain ⟨t, ht, hm⟩ := List.mem_flatMap.mp hm
  exact hs t ht hm

theorem LiesBelow.join_name (h : LiesBelow levels root dir) (hd : dir ≠ "") {name : String}
    (hn : IsName name) : LiesBelow (levels + 1) root (Path.join dir [name]) := by
  unfold LiesBelow
  rw [ofText_join hd, List.flatMap_singleton, segmentsOf_name hn, walk_cons, walk_nil,
    step_name _ hn]
  exact IsUnder.concat h name

theorem LiesBelow.resolve (h : LiesBelow levels root dir) (hd : dir ≠ "") (ht : IsInner text) :
    LiesBelow (levels + (steps text).length) root (resolve dir text) := by
  unfold LiesBelow
  rw [ofText_resolve hd ht.relative]
  exact IsUnder.walk h ht.no_dots

theorem LiesBelow.resolve_dir (h : LiesBelow levels root dir) (hd : dir ≠ "")
    (ht : IsInner text) : LiesBelow levels root (Path.resolve dir text) :=
  (h.resolve hd ht).mono (Nat.le_add_right levels _)

/-- A text that has a step leads further down. -/
theorem LiesBelow.resolve_file (h : LiesBelow levels root dir) (hd : dir ≠ "")
    (ht : IsInner text) (hs : steps text ≠ []) :
    LiesBelow (levels + 1) root (Path.resolve dir text) :=
  (h.resolve hd ht).mono (Nat.add_le_add_left (List.length_pos_iff.mpr hs) levels)

/-- A text without steps leads nowhere. -/
theorem normalize_of_steps_eq_nil (hr : isRooted text = false) (h : steps text = []) :
    normalize text = "." := by
  rw [normalize, ofText_eq_walk, ← walk_steps, h, origin, if_neg (by simp [hr])]
  rfl

theorem IsInnerFile.liesBelow (h : IsInnerFile text) (hroot : root ≠ "") :
    LiesBelow 1 root (Path.resolve root text) :=
  (LiesBelow.refl root).resolve_file hroot h.toIsInner fun he =>
    h.ne_here (normalize_of_steps_eq_nil h.relative he)

/-- Three levels down, three steps up stay below the root. -/
theorem LiesBelow.join_manifest (h : LiesBelow 3 root dir) (hd : dir ≠ "") :
    LiesBelow 1 root (Path.join dir ["..", "..", "..", "package.json"]) := by
  have hsegments : ["..", "..", "..", "package.json"].flatMap segmentsOf =
      ["..", "..", "..", "package.json"] := by
    decide +kernel
  have hname : IsName "package.json" := by
    constructor <;> decide
  unfold LiesBelow
  rw [ofText_join hd, hsegments, walk_cons, walk_cons, walk_cons, walk_cons, walk_nil,
    step_name _ hname]
  exact (((IsUnder.step h "..").step "..").step "..").concat _

end LiesBelow

/-! ## Trimmed subpaths -/

theorem segmentsOf_dropWhile (cs : List Char) :
    segmentsOf (String.ofList (cs.dropWhile (· == '/'))) ⊆ segmentsOf (String.ofList cs) := by
  induction cs with
  | nil => exact List.Subset.refl _
  | cons c rest ih =>
    by_cases hc : c = '/'
    · have htext : String.ofList (c :: rest) = "" ++ "/" ++ String.ofList rest := by
        rw [hc, ← String.toList_inj]
        simp
      rw [List.dropWhile_cons_of_pos (by simpa using hc), htext, segmentsOf_append]
      exact List.Subset.trans ih (List.subset_append_right _ _)
    · rw [List.dropWhile_cons_of_neg (by simpa using hc)]
      exact List.Subset.refl _

theorem segmentsOf_rdropWhile (cs : List Char) :
    segmentsOf (String.ofList (cs.rdropWhile (· == '/'))) ⊆ segmentsOf (String.ofList cs) := by
  induction cs using List.reverseRecOn with
  | nil => exact List.Subset.refl _
  | append_singleton init c ih =>
    by_cases hc : c = '/'
    · have htext : String.ofList (init ++ [c]) = String.ofList init ++ "/" ++ "" := by
        rw [hc, ← String.toList_inj]
        simp
      rw [List.rdropWhile_concat_pos _ _ _ (by simpa using hc), htext, segmentsOf_append]
      exact List.Subset.trans ih (List.subset_append_left _ _)
    · rw [List.rdropWhile_concat_neg _ _ _ (by simpa using hc)]
      exact List.Subset.refl _

end Path

/-- Trimming takes empty segments away and adds none. -/
theorem ExportMap.segmentsOf_trimSlashes (text : String) :
    Path.segmentsOf (trimSlashes text) ⊆ Path.segmentsOf text := by
  have h := List.Subset.trans (Path.segmentsOf_rdropWhile (text.toList.dropWhile (· == '/')))
    (Path.segmentsOf_dropWhile text.toList)
  rwa [String.ofList_toList] at h

/-! ## Plans -/

/-- The segments that lead to the types of an entry. -/
theorem ExportEntry.segmentsOf_types (subpath tag : String) :
    Path.segmentsOf (ofTag subpath tag).types =
      "." :: (Path.segmentsOf subpath ++ Path.segmentsOf tag ++ ["index.d.ts"]) := by
  have htypes : (ofTag subpath tag).types = "." ++ "/" ++ (subpath ++ "/" ++ tag ++ "/" ++
      ExportMap.declarationName) := by
    rw [ofTag, show "/index.d.ts" = "/" ++ ExportMap.declarationName by decide,
      show "./" = "." ++ "/" by decide]
    simp only [String.append_assoc]
  rw [htypes, Path.segmentsOf_append, Path.segmentsOf_append, Path.segmentsOf_append,
    Path.segmentsOf_name ExportMap.isName_declaration]
  rfl

theorem ExportEntry.steps_types (subpath tag : String) :
    Path.steps (ofTag subpath tag).types ≠ [] := by
  refine List.ne_nil_of_mem (a := "index.d.ts") (List.mem_filter.mpr ⟨?_, by decide⟩)
  rw [segmentsOf_types]
  exact List.mem_cons_of_mem _ (List.mem_append_right _ (List.mem_singleton_self _))

/-- The types of an entry lie below its package when its subpath and its tag do. -/
theorem ExportEntry.isInner_types {subpath tag : String} (hs : ".." ∉ Path.segmentsOf subpath)
    (ht : Path.segmentsOf tag = [tag]) (hd : tag ≠ "..") :
    Path.IsInner (ofTag subpath tag).types := by
  refine ⟨?_, ?_⟩
  · rw [ofTag]
    simp only [String.append_assoc]
    exact Path.isRooted_append (by decide) _
  · rw [segmentsOf_types, ht]
    simp [hs, hd.symm]

namespace Target

/-- A target whose configured places and export subpath nowhere lead up. -/
structure IsInner (t : Target) : Prop where
  proxyFile : Path.IsInnerFile t.proxyFile
  arrayFile : ∀ file, t.arrayFile = some file → Path.IsInnerFile file
  componentDir : ∀ dir, t.componentDir = some dir → Path.IsInner dir
  libraryManifest : ∀ file, t.libraryManifest = some file → Path.IsInnerFile file
  exportSubpath : Path.IsInner t.exportSubpath

section Places

variable {t : Target} {rootDir : String}

theorem IsInner.liesBelow_proxyDir (h : t.IsInner) (hroot : Path.isRooted rootDir = true) :
    Path.LiesBelow 0 rootDir (t.paths rootDir).proxyDir := by
  rw [proxyDir_paths]
  exact (h.proxyFile.liesBelow (Path.ne_empty_of_isRooted hroot)).directory

theorem IsInner.liesBelow_componentDir (h : t.IsInner) (hroot : Path.isRooted rootDir = true) :
    Path.LiesBelow 0 rootDir (t.paths rootDir).componentDir := by
  rw [componentDir_paths]
  cases hd : t.componentDir with
  | none =>
    rw [Option.map_none, Option.getD_none]
    refine (h.liesBelow_proxyDir hroot).join (isAbsolute_proxyDir hroot).ne_empty ?_
    decide +kernel
  | some dir =>
    rw [Option.map_some, Option.getD_some]
    exact (Path.LiesBelow.refl rootDir).resolve_dir (Path.ne_empty_of_isRooted hroot)
      (h.componentDir dir hd)

theorem IsInner.liesBelow_supportFile (h : t.IsInner) (hroot : Path.isRooted rootDir = true) :
    Path.LiesBelow 1 rootDir (ProxyFile.supportFile (t.paths rootDir)) := by
  have hproxy := isAbsolute_proxyDir (t := t) hroot
  have hjoin : ProxyFile.supportFile (t.paths rootDir) =
      Path.join (Path.join (t.paths rootDir).proxyDir [Support.directory]) [Support.fileName] :=
    (hproxy.join_join [Support.directory] [Support.fileName]).symm
  rw [hjoin]
  refine ((h.liesBelow_proxyDir hroot).join hproxy.ne_empty ?_).join_name
    (hproxy.join _).ne_empty Assembly.isName_support
  decide +kernel

/-- The default place of the manifest needs a proxy directory that is deep enough. -/
theorem IsInner.liesBelow_libraryManifest (h : t.IsInner) (hroot : Path.isRooted rootDir = true)
    (hlevels : t.libraryManifest.isSome = true ∨
      Path.LiesBelow 3 rootDir (t.paths rootDir).proxyDir) :
    Path.LiesBelow 1 rootDir (t.paths rootDir).libraryManifest := by
  rw [libraryManifest_paths]
  cases hm : t.libraryManifest with
  | none =>
    rw [hm] at hlevels
    rw [Option.map_none, Option.getD_none]
    exact (hlevels.resolve_left nofun).join_manifest (isAbsolute_proxyDir hroot).ne_empty
  | some file =>
    rw [Option.map_some, Option.getD_some]
    exact (h.libraryManifest file hm).liesBelow (Path.ne_empty_of_isRooted hroot)

end Places

variable {t : Target} {components : List Component} {config : BuildConfig}

/-- Generated files stay below the root: a target whose places nowhere lead up gets
no file outside, when its tags are no places either and its manifest is not looked
for above the root. -/
theorem liesBelow_of_plan {view : FileView} {p : Plan}
    (hroot : Path.isRooted config.rootDir = true) (h : t.IsInner)
    (htags : ∀ c ∈ Component.select t.excluded components,
      '/' ∉ c.tag.toList ∧ '\\' ∉ c.tag.toList ∧ c.tag ≠ "..")
    (hlevels : t.libraryManifest.isSome = true ∨
      Path.LiesBelow 3 config.rootDir (t.paths config.rootDir).proxyDir)
    (hp : t.plan view components config = .ok p) :
    ∀ f ∈ p.allFiles, Path.LiesBelow 1 config.rootDir f.path := by
  have hne := Path.ne_empty_of_isRooted hroot
  have hproxy := h.liesBelow_proxyDir hroot
  have hproxyNe := (isAbsolute_proxyDir (t := t) hroot).ne_empty
  have hmanifest := h.liesBelow_libraryManifest hroot hlevels
  refine forall_paths_of_plan hp (h.proxyFile.liesBelow hne)
    (fun path hpath => (h.arrayFile path hpath).liesBelow hne) hmanifest
    (h.liesBelow_supportFile hroot) ?_ ?_ ?_
  · exact fun name hn => hproxy.join_name hproxyNe (ValueAccessor.isName_of_mem_fileNames hn)
  · intro name hn
    refine (h.liesBelow_componentDir hroot).join_name (isAbsolute_componentDir hroot).ne_empty ?_
    rcases ComponentFiles.mem_names hn with ⟨tag, ht, rfl⟩ | hn
    · obtain ⟨c, hc, rfl⟩ := List.mem_map.mp ht
      exact Path.isName_append_ts (htags c hc).1 (htags c hc).2.1
    · exact ComponentFiles.isName_of_mem hn
  · intro c hc
    have hsubpath : ".." ∉ Path.segmentsOf (ExportMap.trimSlashes t.exportSubpath) :=
      fun hm => h.exportSubpath.no_dots (ExportMap.segmentsOf_trimSlashes _ hm)
    exact hmanifest.directory.resolve_file
      (isAbsolute_libraryManifest hroot).directory.ne_empty
      (ExportEntry.isInner_types hsubpath (Path.segmentsOf_single (htags c hc).1 (htags c hc).2.1)
        (htags c hc).2.2) (ExportEntry.steps_types _ _)

/-- A target deep inside its repository, which leaves the place of the manifest at
its default. -/
def deep : Target :=
  { perComponent with
    proxyFile := "angular\\projects/library/src/proxies.ts"
    libraryManifest := none }

theorem isInner_deep : deep.IsInner where
  proxyFile := ⟨⟨by decide, by decide +kernel⟩, by decide +kernel⟩
  arrayFile := by
    rintro _ ⟨⟩
    exact ⟨⟨by decide, by decide +kernel⟩, by decide +kernel⟩
  componentDir := nofun
  libraryManifest := nofun
  exportSubpath := ⟨by decide, by decide +kernel⟩

theorem liesBelow_of_plan_deep :
    ∃ p, deep.plan (fun _ => .error .missing) [myInput] repository = .ok p ∧
      ∀ f ∈ p.allFiles, Path.LiesBelow 1 "/repo" f.path := by
  obtain ⟨p, hp⟩ : ∃ p, deep.plan (fun _ => .error .missing) [myInput] repository = .ok p :=
    ⟨_, rfl⟩
  have htags : ∀ c ∈ Component.select deep.excluded [myInput],
      '/' ∉ c.tag.toList ∧ '\\' ∉ c.tag.toList ∧ c.tag ≠ ".." := by
    intro c hc
    rw [show deep.excluded = perComponent.excluded from rfl, select_myInput] at hc
    rw [List.mem_singleton.mp hc]
    decide
  have hlevels : Path.LiesBelow 3 repository.rootDir (deep.paths repository.rootDir).proxyDir :=
    ⟨["angular", "projects", "library", "src"], by decide, by decide +kernel⟩
  exact ⟨p, hp, liesBelow_of_plan (by decide) isInner_deep htags (.inr hlevels) hp⟩

end Target

end ElementWrappers
