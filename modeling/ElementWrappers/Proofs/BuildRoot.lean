import Mathlib
import ElementWrappers.CommandLine.Inputs
import ElementWrappers.Proofs.JsonText
import ElementWrappers.Proofs.PlannedPaths
import ElementWrappers.Proofs.Runs

/-!
# The root of a build

The root is set in the document of a configuration before it is decoded, and an
object always has it set: then the root is absolute and the one that was asked
for. But a record can as well be an array of its fields, which has no root to
set, so the first item of an array is the root as it stands
(`root_of_configOf`). Below an absolute root, all planned paths are absolute.
-/

namespace ElementWrappers

/-! ## Planned paths -/

/-- Below a rooted directory, all paths of a plan are absolute. -/
theorem Target.isAbsolute_of_plan {t : Target} {view : FileView} {components : List Component}
    {config : BuildConfig} {p : Plan} (hroot : Path.isRooted config.rootDir = true)
    (hp : t.plan view components config = .ok p) : ∀ f ∈ p.allFiles, Path.IsAbsolute f.path := by
  have hproxy := isAbsolute_proxyDir (t := t) hroot
  have hmanifest := isAbsolute_libraryManifest (t := t) hroot
  refine forall_paths_of_plan hp (isAbsolute_proxyFile hroot)
    (fun path _ => Path.isAbsolute_resolve hroot path) hmanifest ?_ ?_ ?_ ?_
  · exact hproxy.join [Support.directory, Support.fileName]
  · exact fun name _ => hproxy.join [name]
  · exact fun name _ => (isAbsolute_componentDir hroot).join [name]
  · exact fun _ _ => Path.isAbsolute_resolve hmanifest.directory.isRooted _

/-- The plans of a run are plans of targets, each for the files before its pass. -/
theorem PassesAll.exists_plan {components : List Component} {config : BuildConfig}
    {targets : List Target} {s s' : Store} {plans : List Plan}
    (h : PassesAll components config targets s (.ok plans) s') :
    ∀ p ∈ plans, ∃ t ∈ targets, ∃ view : FileView, t.plan view components config = .ok p := by
  induction targets generalizing s plans with
  | nil =>
    cases h
    exact List.forall_mem_nil _
  | cons t rest ih =>
    cases h with
    | passed pass later =>
      refine List.forall_mem_cons.mpr ⟨?_, fun p hp => ?_⟩
      · cases pass with
        | completed plan files manifest => exact ⟨t, List.mem_cons_self, _, plan⟩
      · obtain ⟨t', ht, view, hplan⟩ := ih later p hp
        exact ⟨t', List.mem_cons_of_mem _ ht, view, hplan⟩

theorem BuildConfig.Runs.isAbsolute_paths {components : List Component} {config : BuildConfig}
    {s s' : Store} {plans : List Plan} (h : config.Runs components s (.ok plans) s')
    (hroot : Path.isRooted config.rootDir = true) :
    ∀ p ∈ plans, ∀ f ∈ p.allFiles, Path.IsAbsolute f.path := by
  cases h with
  | made read passes =>
    intro p hp
    obtain ⟨t, -, view, hplan⟩ := passes.exists_plan p hp
    exact Target.isAbsolute_of_plan hroot hplan

namespace CommandLine

/-! ## Raw paths -/

namespace RawPath

variable {base path : String}

theorem isRooted_of_isAbsolute (h : isAbsolute path = true) : Path.isRooted path = true := by
  obtain ⟨rest, hc⟩ := List.head?_eq_some_iff.mp (beq_iff_eq.mp h)
  rw [Path.isRooted, hc]
  rfl

theorem ne_empty_of_isAbsolute (h : isAbsolute path = true) : path ≠ "" :=
  Path.ne_empty_of_isRooted (isRooted_of_isAbsolute h)

theorem isAbsolute_append (h : isAbsolute base = true) (rest : String) :
    isAbsolute (base ++ rest) = true := by
  obtain ⟨cs, hc⟩ := List.head?_eq_some_iff.mp (beq_iff_eq.mp h)
  rw [isAbsolute, String.toList_append, hc]
  rfl

theorem isAbsolute_join (h : isAbsolute base = true) (path : String) :
    isAbsolute (join base path) = true := by
  unfold join
  split
  · rename_i hp
    simpa [ne_empty_of_isAbsolute h] using hp
  · split
    · exact isAbsolute_append h path
    · rw [String.append_assoc]
      exact isAbsolute_append h _

theorem absolute_eq_join (base path : String) : absolute base path = join base path := by
  unfold absolute
  split
  · rename_i hp
    rw [join, if_pos (by simp [hp])]
  · rfl

/-- A path in normal form, as seen from a directory. -/
def seenFrom (base path : String) : String :=
  if isAbsolute path then Path.normalize path else Path.join base [path]

/-- A slash more between the parts of a path does not matter. -/
theorem normalize_append_slash (h : base.toList.getLast? = some '/') (path : String) :
    Path.normalize (base ++ path) = Path.normalize (base ++ "/" ++ path) := by
  obtain ⟨cs, hcs⟩ := List.getLast?_eq_some_iff.mp h
  obtain rfl : base = String.ofList cs ++ "/" := by
    rw [← String.toList_inj, hcs]
    simp
  have hne : String.ofList cs ++ "/" ≠ "" := by simp
  have horigin : Path.origin (String.ofList cs ++ "/" ++ path) =
      Path.origin (String.ofList cs ++ "/" ++ "/" ++ path) := by
    unfold Path.origin
    rw [Path.isRooted_append hne, Path.isRooted_append (Path.append_ne_empty hne _),
      Path.isRooted_append hne]
  have hempty : String.ofList cs ++ "/" = String.ofList cs ++ "/" ++ "" := by simp
  rw [Path.normalize_eq_iff, Path.ofText_eq_walk, Path.ofText_eq_walk, horigin,
    Path.segmentsOf_append, Path.segmentsOf_append, hempty, Path.segmentsOf_append,
    Path.walk_append, Path.walk_append, Path.walk_append,
    show Path.segmentsOf "" = [""] by decide, Path.walk_cons, Path.walk_nil, Path.step_empty]

theorem normalize_join (hb : base ≠ "") (path : String) :
    Path.normalize (join base path) = seenFrom base path := by
  unfold join seenFrom
  by_cases hp : isAbsolute path = true
  · rw [if_pos (by simp [hp]), if_pos hp]
  · rw [if_neg (by simp [hp, hb]), if_neg hp]
    split
    · rename_i hlast
      exact normalize_append_slash (beq_iff_eq.mp hlast) path
    · rfl

/-- What is seen from a directory is seen from its normal form. -/
theorem seenFrom_normalize (hb : isAbsolute base = true) (path : String) :
    seenFrom (Path.normalize base) path = seenFrom base path := by
  have hnormal := Path.isAbsolute_normalize (isRooted_of_isAbsolute hb)
  unfold seenFrom
  rw [Path.join_eq_toText hnormal.ne_empty, Path.join_eq_toText (ne_empty_of_isAbsolute hb),
    Path.ofText_normalize]

end RawPath

/-! ## Roots -/

section Roots

variable {workDir path text : String} {chosen : Option String} {config : BuildConfig}

/-- The root that is asked for, in normal form: the chosen one as seen from the
working directory, else the named one as seen from the directory of the
configuration, else that directory. -/
def rootSeen (workDir path : String) (chosen named : Option String) : String :=
  let directory := RawPath.seenFrom workDir (RawPath.directory path)
  match chosen, named with
  | some root, _ => RawPath.seenFrom workDir root
  | none, some root => RawPath.seenFrom directory root
  | none, none => directory

theorem isAbsolute_rootOf (hw : RawPath.isAbsolute workDir = true) (path : String)
    (chosen : Option String) (v : Json) :
    RawPath.isAbsolute (rootOf workDir path chosen v) = true := by
  unfold rootOf
  simp only [RawPath.absolute_eq_join]
  split
  · exact RawPath.isAbsolute_join hw _
  · exact RawPath.isAbsolute_join (RawPath.isAbsolute_join hw _) _
  · exact RawPath.isAbsolute_join hw _

theorem normalize_rootOf (hw : RawPath.isAbsolute workDir = true) (path : String)
    (chosen : Option String) (v : Json) :
    Path.normalize (rootOf workDir path chosen v) =
      rootSeen workDir path chosen (namedRoot? v) := by
  have hne := RawPath.ne_empty_of_isAbsolute hw
  have hdir := RawPath.isAbsolute_join hw (RawPath.directory path)
  unfold rootOf rootSeen
  simp only [RawPath.absolute_eq_join]
  cases chosen with
  | some root => exact RawPath.normalize_join hne root
  | none =>
    cases namedRoot? v with
    | some root =>
      simp only
      rw [← RawPath.normalize_join hne, RawPath.seenFrom_normalize hdir,
        RawPath.normalize_join (RawPath.ne_empty_of_isAbsolute hdir)]
    | none => exact RawPath.normalize_join hne _

/-- A configuration has the root of its record. -/
theorem field_of_ofJson? {v : Json} (h : BuildConfig.ofJson? v = some config) :
    ∃ fields, v.record? ["rootDir", "outputTargets"] = some fields ∧
      fields "rootDir" = some (.str config.rootDir) := by
  unfold BuildConfig.ofJson? at h
  obtain ⟨fields, hfields, h⟩ := Option.bind_eq_some_iff.mp h
  obtain ⟨rootDir, hroot, h⟩ := Option.bind_eq_some_iff.mp h
  obtain ⟨outputs, -, h⟩ := Option.bind_eq_some_iff.mp h
  cases h
  refine ⟨fields, hfields, ?_⟩
  unfold Json.Fields.get at hroot
  split at hroot
  · cases hroot
  · rename_i v hv
    unfold Json.string? at hroot
    split at hroot
    · rw [hv, Option.some.inj hroot]
    · cases hroot

theorem document_of_configOf (h : configOf workDir path chosen text = .ok config) :
    ∃ v, Json.read text = .ok v ∧
      BuildConfig.ofJson? (withRoot (rootOf workDir path chosen v) v) = some config := by
  unfold configOf at h
  split at h
  · cases h
  · rename_i v hread
    split at h
    · cases h
    · rename_i config' hconfig
      cases h
      exact ⟨v, hread, hconfig⟩

/-- A configuration is an object with its root set, or an array that begins with
the root. -/
theorem rootDir_of_configOf (h : configOf workDir path chosen text = .ok config) :
    (∃ members, Json.read text = .ok (.obj members) ∧
      config.rootDir = rootOf workDir path chosen (.obj members)) ∨
    ∃ rest, Json.read text = .ok (.arr (.str config.rootDir :: rest)) := by
  obtain ⟨v, hread, hconfig⟩ := document_of_configOf h
  obtain ⟨fields, hrecord, hroot⟩ := field_of_ofJson? hconfig
  cases v with
  | obj members =>
    refine .inl ⟨members, hread, ?_⟩
    rw [withRoot, Json.record?] at hrecord
    split at hrecord
    · obtain rfl := Option.some.inj hrecord
      rw [Entries.get?_insert_self] at hroot
      exact (Json.str.inj (Option.some.inj hroot)).symm
    · cases hrecord
  | arr values =>
    change (if values.length ≤ 2 then some (Json.positional _ values) else none) = _ at hrecord
    split at hrecord
    · obtain rfl := Option.some.inj hrecord
      cases values with
      | nil => cases hroot
      | cons first rest =>
        rw [Json.positional, if_pos rfl] at hroot
        rw [Option.some.inj hroot] at hread
        exact .inr ⟨rest, hread⟩
    · cases hrecord
  | null => cases hrecord
  | bool b => cases hrecord
  | int n => cases hrecord
  | double d => cases hrecord
  | str s => cases hrecord

/-- From an absolute working directory, a configuration that is an object has the
root that is asked for, and it is absolute; one that is an array has its first
item. All paths planned below an absolute root are absolute. -/
theorem root_of_configOf (hw : RawPath.isAbsolute workDir = true)
    (h : configOf workDir path chosen text = .ok config) :
    ((∃ members, Json.read text = .ok (.obj members) ∧
        RawPath.isAbsolute config.rootDir = true ∧
        Path.normalize config.rootDir =
          rootSeen workDir path chosen (namedRoot? (.obj members))) ∨
      ∃ rest, Json.read text = .ok (.arr (.str config.rootDir :: rest))) ∧
    (RawPath.isAbsolute config.rootDir = true → ∀ components s plans s',
      config.Runs components s (.ok plans) s' →
        ∀ p ∈ plans, ∀ f ∈ p.allFiles, Path.IsAbsolute f.path) := by
  refine ⟨(rootDir_of_configOf h).imp_left ?_, ?_⟩
  · rintro ⟨members, hread, hroot⟩
    refine ⟨members, hread, ?_, ?_⟩
    · rw [hroot]
      exact isAbsolute_rootOf hw path chosen (.obj members)
    · rw [hroot]
      exact normalize_rootOf hw path chosen (.obj members)
  · intro hroot components s plans s' hruns
    exact hruns.isAbsolute_paths (RawPath.isRooted_of_isAbsolute hroot)

/-- A configuration whose root lies beside its directory, with one target. -/
def besideDocument : Json :=
  .obj [("rootDir", .str "../app"),
    ("outputTargets", .arr [(BuildOutput.angular "lazy" []).toJson])]

theorem read_besideDocument : Json.read besideDocument.compact = .ok besideDocument :=
  Json.IsPlain.read_compact ⟨by decide +kernel, by decide +kernel, by rfl⟩

/-- What is read from the document. -/
def beside : BuildConfig := ⟨"/work/conf/../app", [.angular "lazy" []]⟩

theorem configOf_besideDocument :
    configOf "/work" "conf/build.json" none besideDocument.compact = .ok beside := by
  have hroot : rootOf "/work" "conf/build.json" none besideDocument = "/work/conf/../app" := by
    decide +kernel
  unfold configOf
  rw [read_besideDocument]
  simp only [hroot]
  rfl

theorem root_of_configOf_besideDocument :
    configOf "/work" "conf/build.json" none besideDocument.compact = .ok beside ∧
      RawPath.isAbsolute beside.rootDir = true ∧ Path.normalize beside.rootDir = "/work/app" ∧
      ∃ p s', beside.Runs [] {} (.ok [p]) s' ∧ ∀ f ∈ p.allFiles, Path.IsAbsolute f.path := by
  obtain ⟨hshape, hplans⟩ := root_of_configOf (by decide) configOf_besideDocument
  rcases hshape with ⟨members, hread, hroot, hseen⟩ | ⟨rest, hread⟩
  · have hdocument : .obj members = besideDocument :=
      Except.ok.inj (hread.symm.trans read_besideDocument)
    rw [hdocument] at hseen
    have hruns : beside.Runs [] {} _ _ := BuildConfig.Runs.of_run {}
    obtain ⟨p, hp⟩ : ∃ p, ((beside.run []).run ({} : Store)).1 = .ok [p] := ⟨_, rfl⟩
    rw [hp] at hruns
    exact ⟨configOf_besideDocument, hroot, hseen.trans (by decide +kernel), p, _, hruns,
      hplans hroot _ _ _ _ hruns p (List.mem_singleton_self p)⟩
  · cases hread.symm.trans read_besideDocument

/-- A configuration that is an array of its fields. -/
def listDocument : Json := .arr [.str "src", .arr []]

/-- In an array, a relative root stays relative. -/
theorem not_isAbsolute_listDocument :
    ¬ ∀ (workDir path text : String) (chosen : Option String) (config : BuildConfig),
      RawPath.isAbsolute workDir = true → configOf workDir path chosen text = .ok config →
        RawPath.isAbsolute config.rootDir = true := by
  intro h
  have hplain : Json.IsPlain Json.deepest listDocument :=
    ⟨by decide +kernel, by decide +kernel, by rfl⟩
  have hconfig : configOf "/work" "build.json" none listDocument.compact = .ok ⟨"src", []⟩ := by
    unfold configOf
    rw [hplain.read_compact]
    rfl
  exact absurd (h _ _ _ _ _ (by decide) hconfig) (by decide)

end Roots

end CommandLine

end ElementWrappers
