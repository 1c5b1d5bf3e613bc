import Mathlib
import ElementWrappers.Proofs.JsonRecords
import ElementWrappers.Proofs.Regeneration
import ElementWrappers.Proofs.Runs

/-!
# Manifests that several targets share

Each pass reads the manifest that the passes before it have left, and replaces
the keys below its own subpath. Subpaths that are apart have no key in common,
so a pass takes away nothing that another has registered, and the order of the
passes does not matter: `Runs.registersAll`.
-/

namespace ElementWrappers

namespace ExportMap

variable {components : List Component} {exportSubpath key : String} {m : ExportMap}
  {maps maps' : List ExportMap} {exports manifest : Json.Members}

/-! ## Subpaths -/

/-- Neither of two subpaths is the other or lies below it. -/
def Apart (subpath other : String) : Prop :=
  ¬ (subpath ++ "/").toList <+: (other ++ "/").toList ∧
    ¬ (other ++ "/").toList <+: (subpath ++ "/").toList

instance (subpath other : String) : Decidable (Apart subpath other) :=
  inferInstanceAs (Decidable (_ ∧ _))

theorem Apart.symm {subpath other : String} (h : Apart subpath other) : Apart other subpath :=
  ⟨h.2, h.1⟩

/-- No key lies below both. -/
theorem Apart.not_isBelow {subpath other : String} (h : Apart subpath other)
    (hs : IsBelow subpath key) : ¬ IsBelow other key := by
  intro ho
  have hcut : ∀ subpath : String,
      ("./" ++ subpath ++ "/").toList = "./".toList ++ (subpath ++ "/").toList := by
    intro subpath
    rw [String.append_assoc, String.toList_append]
  unfold IsBelow at hs ho
  rw [hcut] at hs ho
  rcases List.prefix_or_prefix_of_prefix hs ho with hp | hp
  · exact h.1 ((List.prefix_append_right_inj _).mp hp)
  · exact h.2 ((List.prefix_append_right_inj _).mp hp)

/-! ## One merge -/

/-- Below the subpath of a map a merge leaves its entries and nothing else. -/
theorem get?_mergeExports_of_isBelow (h : IsBelow m.subpath key) :
    Entries.get? (m.mergeExports exports) key = (m.entries.get? key).map ExportEntry.toJson := by
  have hmerge : Entries.get? (m.mergeExports exports) key =
      ((m.entries.get? key).map ExportEntry.toJson).or (Entries.get? (exports.filter fun member =>
        !m.owns member.1 || m.entries.entries.has member.1) key) :=
    Entries.get?_insertAll_of_nodup m.entries.distinct
  rw [hmerge]
  cases he : m.entries.get? key with
  | some entry => rfl
  | none =>
    -- An owned key without an entry is none of those kept.
    have hnot : Entries.has m.entries.entries key = false := by
      rw [Entries.has, show m.entries.entries.get? key = none from he]
      rfl
    rw [Option.map_none, Option.none_or]
    apply Entries.get?_eq_none_of_not_mem
    rw [Entries.mem_keys_filter (p := fun key => !m.owns key || m.entries.entries.has key),
      owns_iff.mpr h, hnot]
    exact fun hk => Bool.false_ne_true hk.2

/-- All entries of a map lie below its subpath. -/
def IsContained (m : ExportMap) : Prop := ∀ key ∈ m.entries.keys, IsBelow m.subpath key

theorem isContained_ofComponents : (ofComponents components exportSubpath).IsContained :=
  fun _ => isBelow_of_mem_ofComponents

theorem key_injective {subpath tag tag' : String}
    (h : ExportMap.key subpath tag = ExportMap.key subpath tag') : tag = tag' :=
  (String.append_right_inj _).mp h

/-- The entries of components are those of their tags. -/
theorem get?_ofComponents {entry : ExportEntry} :
    (ofComponents components exportSubpath).entries.get? key = some entry ↔
      ∃ c ∈ components, key = ExportMap.key (trimSlashes exportSubpath) c.tag ∧
        entry = .ofTag (trimSlashes exportSubpath) c.tag := by
  constructor
  · intro h
    obtain ⟨c, hc, he⟩ := eq_of_mem_ofComponents (Entries.mem_of_get? h)
    cases he
    exact ⟨c, hc, rfl, rfl⟩
  · rintro ⟨c, hc, rfl, rfl⟩
    have hk : ExportMap.key (trimSlashes exportSubpath) c.tag ∈
        (ofComponents components exportSubpath).entries.keys :=
      Table.mem_keys_ofList.mpr (List.mem_map_of_mem (List.mem_map_of_mem hc))
    obtain ⟨entry, he⟩ := Option.isSome_iff_exists.mp (Entries.has_iff_mem_keys.mpr hk)
    -- The entry found belongs to a component with the same key, and so the same tag.
    obtain ⟨c', -, hc'⟩ := eq_of_mem_ofComponents (Entries.mem_of_get? he)
    obtain ⟨hkey, rfl⟩ := Prod.mk.inj hc'
    rwa [← key_injective hkey] at he

/-! ## Several merges -/

/-- The export map of a manifest. -/
def exportsOf (manifest : Json.Members) : Json.Members :=
  membersOf (Entries.get? manifest "exports")

theorem exportsOf_merge (m : ExportMap) (manifest : Json.Members) :
    exportsOf (m.merge manifest) = m.mergeExports (exportsOf manifest) := by
  unfold exportsOf
  rw [get?_exports_merge]
  rfl

/-- The manifest after several merges. -/
def mergeAll (maps : List ExportMap) (manifest : Json.Members) : Json.Members :=
  maps.foldl (fun manifest m => m.merge manifest) manifest

theorem get?_exports_mergeAll (h : maps ≠ []) :
    Entries.get? (mergeAll maps manifest) "exports" =
      some (.obj (exportsOf (mergeAll maps manifest))) := by
  obtain ⟨earlier, m, rfl⟩ := (List.eq_nil_or_concat maps).resolve_left h
  have hlast : mergeAll (earlier.concat m) manifest = m.merge (mergeAll earlier manifest) := by
    unfold mergeAll
    rw [List.concat_eq_append, List.foldl_append]
    rfl
  rw [hlast, exportsOf_merge]
  exact get?_exports_merge m _

/-- Some merges leave a key alone that lies below none of their subpaths. -/
theorem get?_mergeAll_of_not_isBelow (hc : ∀ m ∈ maps, m.IsContained)
    (h : ∀ m ∈ maps, ¬ IsBelow m.subpath key) :
    Entries.get? (exportsOf (mergeAll maps manifest)) key =
      Entries.get? (exportsOf manifest) key := by
  induction maps generalizing manifest with
  | nil => rfl
  | cons m rest ih =>
    obtain ⟨hm, hrest⟩ := List.forall_mem_cons.mp h
    obtain ⟨hcm, hcrest⟩ := List.forall_mem_cons.mp hc
    have hlater : Entries.get? (exportsOf (mergeAll rest (m.merge manifest))) key =
        Entries.get? (exportsOf (m.merge manifest)) key := ih hcrest hrest
    rw [exportsOf_merge] at hlater
    exact hlater.trans (get?_mergeExports_of_not_isBelow (fun hk => hm (hcm key hk)) hm)

/-- A key below one of several subpaths has the entry of that map, whatever is
merged before and after. -/
theorem get?_mergeAll_of_isBelow (hc : ∀ m ∈ maps, m.IsContained)
    (apart : maps.Pairwise fun m n => Apart m.subpath n.subpath) (hm : m ∈ maps)
    (hb : IsBelow m.subpath key) :
    Entries.get? (exportsOf (mergeAll maps manifest)) key =
      (m.entries.get? key).map ExportEntry.toJson := by
  induction maps generalizing manifest with
  | nil => cases hm
  | cons n rest ih =>
    obtain ⟨hn, hrest⟩ := List.pairwise_cons.mp apart
    have hcrest : ∀ m ∈ rest, m.IsContained := fun m hm => hc m (List.mem_cons_of_mem _ hm)
    rcases List.mem_cons.mp hm with rfl | hm
    · refine (get?_mergeAll_of_not_isBelow hcrest fun n hr => (hn n hr).not_isBelow hb).trans ?_
      rw [exportsOf_merge]
      exact get?_mergeExports_of_isBelow hb
    · exact ih hcrest hrest hm

/-- Merges of maps that are apart may be made in any order. -/
theorem get?_mergeAll_perm (hc : ∀ m ∈ maps, m.IsContained)
    (apart : maps.Pairwise fun m n => Apart m.subpath n.subpath) (hp : maps'.Perm maps)
    (key : String) :
    Entries.get? (exportsOf (mergeAll maps' manifest)) key =
      Entries.get? (exportsOf (mergeAll maps manifest)) key := by
  have hc' : ∀ m ∈ maps', m.IsContained := fun m hm => hc m (hp.mem_iff.mp hm)
  have apart' := hp.symm.pairwise apart Apart.symm
  by_cases h : ∃ m ∈ maps, IsBelow m.subpath key
  · obtain ⟨m, hm, hb⟩ := h
    rw [get?_mergeAll_of_isBelow hc apart hm hb,
      get?_mergeAll_of_isBelow hc' apart' (hp.mem_iff.mpr hm) hb]
  · have hn : ∀ m ∈ maps, ¬ IsBelow m.subpath key := fun m hm hb => h ⟨m, hm, hb⟩
    rw [get?_mergeAll_of_not_isBelow hc hn,
      get?_mergeAll_of_not_isBelow hc' fun m hm => hn m (hp.mem_iff.mp hm)]

end ExportMap

/-! ## One pass -/

namespace Target

variable {t : Target} {components : List Component} {config : BuildConfig} {manifest : String}
  {s s' : Store} {p : Plan}

/-- The subpath below which a target keeps its exports. -/
def subpath (t : Target) : String := ExportMap.trimSlashes t.exportSubpath

/-- Whether a target keeps its export map in the manifest at a path. -/
def registersIn (t : Target) (rootDir manifest : String) : Bool :=
  (OutputMode.ofTarget t).isPerComponent && (t.paths rootDir).libraryManifest == manifest

theorem registersIn_iff {rootDir : String} :
    t.registersIn rootDir manifest = true ↔
      t.Maintains rootDir manifest t.subpath := by
  unfold registersIn
  rw [Bool.and_eq_true, beq_iff_eq]
  constructor
  · rintro ⟨hmode, hpath⟩
    unfold OutputMode.ofTarget at hmode
    split at hmode
    · cases hmode
    · cases hmode
    · rename_i htype
      exact ⟨htype, OutputMode.standalone.inj (eq_of_beq hmode), hpath, rfl⟩
  · exact fun h => ⟨h.isPerComponent, h.manifest⟩

/-- A pass merges its entries into the manifest that it finds. -/
theorem Passes.get?_of_registers (made : t.Passes components config s (.ok p) s')
    (ht : t.registersIn config.rootDir manifest = true) :
    ∃ members, Manifest.ofRead manifest (s.read manifest) = .ok members ∧
      s'.files.get? manifest =
        some (Manifest.text ((t.exportMap components).merge members)) := by
  cases made with
  | completed plan files batch =>
    obtain ⟨⟨members, hread, hm⟩, -⟩ := (registersIn_iff.mp ht).of_plan plan
    rw [hm] at batch
    exact ⟨members, hread, batch.get?_of_single_ok⟩

/-- A pass of any other target leaves the manifest alone. -/
theorem Passes.get?_of_not_registers (made : t.Passes components config s (.ok p) s')
    (ht : t.registersIn config.rootDir manifest = false)
    (separate : ∀ f ∈ p.files, f.path ≠ manifest) :
    s'.files.get? manifest = s.files.get? manifest := by
  have plan := (made.ok_iff.mp rfl).1
  refine (made.untouched fun q hq f hf => ?_).1
  obtain rfl := Except.ok.inj (plan.symm.trans hq)
  rcases Plan.mem_allFiles.mp hf with hf | hf
  · exact separate f hf
  · -- The only other file is the manifest of a target that registers elsewhere.
    rintro rfl
    obtain ⟨types, -, ha⟩ := assembly_of_plan plan
    rcases Assembly.cases_of_ofAssembly ha with ⟨-, rfl⟩ | ⟨hmode, members, -, rfl⟩
    · cases hf
    · obtain rfl := Option.mem_some.mp (Option.mem_toList.mp hf)
      have hmode : (OutputMode.ofTarget t).isPerComponent = true := hmode
      have hregisters : t.registersIn config.rootDir (t.paths config.rootDir).libraryManifest =
          true := by
        unfold registersIn
        rw [hmode, beq_self_eq_true, Bool.and_self]
      exact Bool.false_ne_true (ht.symm.trans hregisters)

end Target

/-! ## Several passes -/

/-- The export maps that some targets keep in one manifest. -/
def exportMapsIn (manifest rootDir : String) (components : List Component)
    (targets : List Target) : List ExportMap :=
  (targets.filter fun t => t.registersIn rootDir manifest).map fun t => t.exportMap components

theorem exportMapsIn_cons_of_registers {manifest rootDir : String} {components : List Component}
    {t : Target} {rest : List Target} (h : t.registersIn rootDir manifest = true) :
    exportMapsIn manifest rootDir components (t :: rest) =
      t.exportMap components :: exportMapsIn manifest rootDir components rest := by
  unfold exportMapsIn
  rw [List.filter_cons, if_pos h, List.map_cons]

theorem exportMapsIn_cons_of_not_registers {manifest rootDir : String}
    {components : List Component} {t : Target} {rest : List Target}
    (h : t.registersIn rootDir manifest = false) :
    exportMapsIn manifest rootDir components (t :: rest) =
      exportMapsIn manifest rootDir components rest := by
  unfold exportMapsIn
  rw [List.filter_cons, if_neg (Bool.eq_false_iff.mp h)]

theorem isContained_exportMapsIn {manifest rootDir : String} {components : List Component}
    {targets : List Target} :
    ∀ m ∈ exportMapsIn manifest rootDir components targets, m.IsContained := by
  intro m hm
  obtain ⟨t, -, rfl⟩ := List.mem_map.mp hm
  exact ExportMap.isContained_ofComponents

/-- What is printed of a manifest reads back, whichever of the maps have been
merged into it, in whatever order. -/
def Store.Rereads (s : Store) (manifest : String) (maps : List ExportMap) : Prop :=
  ∀ members, Manifest.ofRead manifest (s.read manifest) = .ok members →
    ∀ done, done.Subperm maps → done ≠ [] →
      Json.read (Manifest.text (ExportMap.mergeAll done members)) =
        .ok (.obj (ExportMap.mergeAll done members))

/-! ## Manifests without numbers -/

/-- A manifest that reads back as printed, also after a merge. -/
structure Manifest.IsPlain (depth : Nat) (members : Json.Members) : Prop where
  nodup : members.keys.Nodup
  plain : ∀ member ∈ members, Json.IsPlain (depth + 1) member.2
  nodup_exports : (ExportMap.exportsOf members).keys.Nodup
  plain_exports : ∀ member ∈ ExportMap.exportsOf members, Json.IsPlain depth member.2

namespace Manifest

variable {depth : Nat} {members : Json.Members}

theorem isPlain_nil (depth : Nat) : IsPlain depth [] :=
  ⟨List.nodup_nil, nofun, List.nodup_nil, nofun⟩

theorem isPlain_entry (e : ExportEntry) : Json.IsPlain 1 e.toJson := by
  refine .obj (show ["types", "default"].Nodup by decide) ?_
  intro member hm
  rcases List.mem_pair.mp hm with rfl | rfl
  · exact ⟨rfl, le_refl _, rfl⟩
  · exact ⟨rfl, le_refl _, rfl⟩

/-- The exports grow by entries, which are shallow. -/
theorem IsPlain.merge (h : IsPlain depth members) (hd : 1 ≤ depth) (m : ExportMap) :
    IsPlain depth (m.merge members) := by
  have hnodup : (m.mergeExports (ExportMap.exportsOf members)).keys.Nodup :=
    Entries.nodup_keys_insertAll (Entries.nodup_keys_filter h.nodup_exports)
  have hplain : ∀ member ∈ m.mergeExports (ExportMap.exportsOf members),
      Json.IsPlain depth member.2 := by
    intro member hm
    rcases Entries.mem_insertAll hm with ⟨entry, -, rfl⟩ | hm
    · exact (isPlain_entry entry.2).mono hd
    · exact h.plain_exports member (List.mem_of_mem_filter hm)
  refine ⟨Entries.nodup_keys_insert (Entries.nodup_keys_insert h.nodup), ?_, ?_, ?_⟩
  · intro member hm
    rcases Entries.mem_insert hm with rfl | hm
    · exact ⟨rfl, Nat.zero_le _, rfl⟩
    · rcases Entries.mem_insert hm with rfl | hm
      · exact .obj hnodup hplain
      · exact h.plain member hm
  · rwa [ExportMap.exportsOf_merge]
  · rwa [ExportMap.exportsOf_merge]

theorem IsPlain.mergeAll (h : IsPlain depth members) (hd : 1 ≤ depth) (maps : List ExportMap) :
    IsPlain depth (ExportMap.mergeAll maps members) := by
  induction maps generalizing members with
  | nil => exact h
  | cons m rest ih => exact ih (h.merge hd m)

theorem IsPlain.read_text (h : IsPlain depth members) (hd : depth + 2 ≤ Json.deepest) :
    Json.read (text members) = .ok (.obj members) :=
  ((Json.IsPlain.obj h.nodup h.plain).mono hd).read_pretty

end Manifest

/-- A manifest without numbers reads back after any merges, if it is not too
deep. -/
theorem Store.rereads_of_isPlain {s : Store} {manifest : String} {depth : Nat}
    (h : ∀ members, Manifest.ofRead manifest (s.read manifest) = .ok members →
      Manifest.IsPlain depth members)
    (hlow : 1 ≤ depth) (hhigh : depth + 2 ≤ Json.deepest) (maps : List ExportMap) :
    s.Rereads manifest maps := by
  intro members hread done _ _
  exact ((h members hread).mergeAll hlow done).read_text hhigh

section Runs

variable {components : List Component} {config : BuildConfig} {manifest : String}
  {targets : List Target} {s s' : Store} {ps : List Plan}

/-- Passes leave the manifest alone, or merge all their maps into it. -/
theorem PassesAll.get?_manifest (made : PassesAll components config targets s (.ok ps) s')
    (separate : ∀ p ∈ ps, ∀ f ∈ p.files, f.path ≠ manifest)
    (rereads : s.Rereads manifest (exportMapsIn manifest config.rootDir components targets)) :
    exportMapsIn manifest config.rootDir components targets = [] ∧
        s'.files.get? manifest = s.files.get? manifest ∨
      exportMapsIn manifest config.rootDir components targets ≠ [] ∧
        ∃ members, Manifest.ofRead manifest (s.read manifest) = .ok members ∧
          s'.files.get? manifest = some (Manifest.text (ExportMap.mergeAll
            (exportMapsIn manifest config.rootDir components targets) members)) := by
  induction targets generalizing s ps with
  | nil =>
    cases made
    exact .inl ⟨rfl, rfl⟩
  | cons t rest ih =>
    cases made with
    | @passed _ _ _ s₁ _ p ps pass later =>
      obtain ⟨hp, hps⟩ := List.forall_mem_cons.mp separate
      cases ht : t.registersIn config.rootDir manifest with
      | false =>
        have hfile := pass.get?_of_not_registers ht hp
        have hread : s₁.read manifest = s.read manifest := by
          unfold Store.read
          rw [hfile]
        rw [exportMapsIn_cons_of_not_registers ht] at rereads ⊢
        rw [← hfile, ← hread]
        refine ih later hps ?_
        unfold Store.Rereads
        rwa [hread]
      | true =>
        rw [exportMapsIn_cons_of_registers ht] at rereads ⊢
        obtain ⟨members, hread, hfile⟩ := pass.get?_of_registers ht
        -- The next passes start from the manifest as this one has printed it.
        have hback : Manifest.ofRead manifest (s₁.read manifest) =
            .ok ((t.exportMap components).merge members) := by
          have htext : s₁.read manifest =
              .ok (Manifest.text ((t.exportMap components).merge members)) := by
            unfold Store.read
            rw [hfile]
          rw [htext]
          exact Manifest.ofRead_text (rereads members hread [_]
            (List.singleton_subperm_iff.mpr List.mem_cons_self) (List.cons_ne_nil _ _))
        have hnext :
            s₁.Rereads manifest (exportMapsIn manifest config.rootDir components rest) := by
          intro found hfound done hdone _
          obtain rfl := Except.ok.inj (hback.symm.trans hfound)
          exact rereads members hread (t.exportMap components :: done)
            ((List.subperm_cons _).mpr hdone) (List.cons_ne_nil _ _)
        refine .inr ⟨List.cons_ne_nil _ _, members, hread, ?_⟩
        rcases ih later hps hnext with ⟨hnil, hsame⟩ | ⟨-, found, hfound, htext⟩
        · rw [hsame, hfile, hnil]
          rfl
        · obtain rfl := Except.ok.inj (hback.symm.trans hfound)
          exact htext

/-! ## Runs -/

/-- The targets of a build stand in the order of its outputs. -/
theorem BuildConfig.angularTargets?_perm {outputs : List BuildOutput} {targets' : List Target}
    (h : outputs.Perm config.outputs) (hr : config.angularTargets? = some targets)
    (hr' : { config with outputs }.angularTargets? = some targets') : targets'.Perm targets := by
  unfold angularTargets? at hr hr'
  have hmap := Json.decodeAll_eq_some_iff.mp hr
  have hmap' := Json.decodeAll_eq_some_iff.mp hr'
  rw [← List.map_perm_map_iff (Option.some_injective Target), ← hmap, ← hmap']
  exact ((h.filter _).map _).map _

namespace Store

variable {exports exports' members : Json.Members}

/-- A printed manifest that reads back has the exports that were printed. -/
theorem hasExports_iff (hfile : s.files.get? manifest = some (Manifest.text members))
    (hback : Json.read (Manifest.text members) = .ok (.obj members)) :
    s.HasExports manifest exports ↔ Entries.get? members "exports" = some (.obj exports) := by
  constructor
  · rintro ⟨text, found, htext, hfound, hexports⟩
    obtain rfl := Option.some.inj (hfile.symm.trans htext)
    cases hback.symm.trans hfound
    exact hexports
  · exact fun hexports => ⟨_, members, hfile, hback, hexports⟩

/-- A manifest has one export map. -/
theorem HasExports.unique (h : s.HasExports manifest exports) (h' : s'.HasExports manifest exports')
    (hfile : s'.files.get? manifest = s.files.get? manifest) : exports = exports' := by
  obtain ⟨text, found, htext, hfound, hexports⟩ := h
  obtain ⟨text', found', htext', hfound', hexports'⟩ := h'
  rw [hfile, htext] at htext'
  cases htext'
  cases hfound.symm.trans hfound'
  cases hexports.symm.trans hexports'
  rfl

end Store

/-- The subpaths of the targets that keep their exports in a manifest are apart. -/
def SubpathsApart (manifest rootDir : String) (targets : List Target) : Prop :=
  (targets.filter fun t => t.registersIn rootDir manifest).Pairwise fun t u =>
    ExportMap.Apart t.subpath u.subpath

instance (manifest rootDir : String) (targets : List Target) :
    Decidable (SubpathsApart manifest rootDir targets) :=
  inferInstanceAs (Decidable (List.Pairwise _ _))

theorem SubpathsApart.exportMapsIn {rootDir : String} (h : SubpathsApart manifest rootDir targets) :
    (exportMapsIn manifest rootDir components targets).Pairwise fun m n =>
      ExportMap.Apart m.subpath n.subpath := List.pairwise_map.mpr h

/-- What a target registers is there when all passes are made. -/
theorem PassesAll.exists_exports (made : PassesAll components config targets s (.ok ps) s')
    (apart : SubpathsApart manifest config.rootDir targets)
    (separate : ∀ p ∈ ps, ∀ f ∈ p.files, f.path ≠ manifest)
    (rereads : s.Rereads manifest (exportMapsIn manifest config.rootDir components targets))
    {t : Target} (ht : t ∈ targets) (hregisters : t.registersIn config.rootDir manifest = true) :
    ∃ exports, s'.HasExports manifest exports ∧
      ∀ key, ExportMap.IsBelow t.subpath key →
        Entries.get? exports key =
          ((t.exportMap components).entries.get? key).map ExportEntry.toJson := by
  have hmem : t.exportMap components ∈ exportMapsIn manifest config.rootDir components targets :=
    List.mem_map_of_mem (List.mem_filter.mpr ⟨ht, hregisters⟩)
  obtain ⟨hne, members, hread, hfile⟩ :=
    (made.get?_manifest separate rereads).resolve_left fun h => List.ne_nil_of_mem hmem h.1
  have hback := rereads members hread _ (List.Subperm.refl _) hne
  refine ⟨_, (Store.hasExports_iff hfile hback).mpr (ExportMap.get?_exports_mergeAll hne), ?_⟩
  intro key hbelow
  exact ExportMap.get?_mergeAll_of_isBelow isContained_exportMapsIn apart.exportMapsIn hmem hbelow

/-- The order of the passes does not show in the exports. -/
theorem PassesAll.get?_exports_perm {config' : BuildConfig} {targets' : List Target}
    {ps' : List Plan} {s'' : Store} {exports exports' : Json.Members}
    (made : PassesAll components config targets s (.ok ps) s')
    (made' : PassesAll components config' targets' s (.ok ps') s'')
    (hroot : config'.rootDir = config.rootDir) (hp : targets'.Perm targets)
    (apart : SubpathsApart manifest config.rootDir targets)
    (separate : ∀ p ∈ ps, ∀ f ∈ p.files, f.path ≠ manifest)
    (separate' : ∀ p ∈ ps', ∀ f ∈ p.files, f.path ≠ manifest)
    (rereads : s.Rereads manifest (exportMapsIn manifest config.rootDir components targets))
    (he : s'.HasExports manifest exports) (he' : s''.HasExports manifest exports') (key : String) :
    Entries.get? exports key = Entries.get? exports' key := by
  have hperm : (exportMapsIn manifest config.rootDir components targets').Perm
      (exportMapsIn manifest config.rootDir components targets) := (hp.filter _).map _
  have rereads' : s.Rereads manifest (exportMapsIn manifest config.rootDir components targets') :=
    fun members hread done hdone => rereads members hread done (hdone.trans hperm.subperm)
  have hmanifest := made.get?_manifest separate rereads
  have hmanifest' := made'.get?_manifest separate' (by rwa [hroot])
  rw [hroot] at hmanifest'
  rcases hmanifest with ⟨hnil, hsame⟩ | ⟨hne, members, hread, hfile⟩
  · -- No target registers anything, so both runs leave the manifest as it was.
    have hnil' := List.perm_nil.mp (hnil ▸ hperm)
    obtain ⟨-, hsame'⟩ := hmanifest'.resolve_right fun h => h.1 hnil'
    rw [he.unique he' (hsame'.trans hsame.symm)]
  · have hne' : exportMapsIn manifest config.rootDir components targets' ≠ [] :=
      fun h => hne (List.perm_nil.mp (h ▸ hperm.symm))
    obtain ⟨-, members', hread', hfile'⟩ := hmanifest'.resolve_left fun h => hne' h.1
    obtain rfl := Except.ok.inj (hread.symm.trans hread')
    have hback := rereads members hread _ (List.Subperm.refl _) hne
    have hback' := rereads' members hread _ (List.Subperm.refl _) hne'
    cases ((Store.hasExports_iff hfile hback).mp he).symm.trans
      (ExportMap.get?_exports_mergeAll hne)
    cases ((Store.hasExports_iff hfile' hback').mp he').symm.trans
      (ExportMap.get?_exports_mergeAll hne')
    exact (ExportMap.get?_mergeAll_perm isContained_exportMapsIn apart.exportMapsIn hperm key).symm

/-- No export is lost between targets that share a manifest, if their subpaths
are apart: at the end of a run each target has its entries below its subpath and
nothing else, and the targets in another order leave the same export map. -/
theorem BuildConfig.Runs.registersAll (made : config.Runs components s (.ok ps) s')
    (read : config.angularTargets? = some targets)
    (apart : SubpathsApart manifest config.rootDir targets)
    (separate : ∀ p ∈ ps, ∀ f ∈ p.files, f.path ≠ manifest)
    (rereads : s.Rereads manifest (exportMapsIn manifest config.rootDir components targets)) :
    (∀ t ∈ targets, t.registersIn config.rootDir manifest = true →
      ∃ exports, s'.HasExports manifest exports ∧
        ∀ key, ExportMap.IsBelow t.subpath key → ∀ value,
          Entries.get? exports key = some value ↔
            ∃ c ∈ Component.select t.excluded components,
              key = ExportMap.key t.subpath c.tag ∧
                value = (ExportEntry.ofTag t.subpath c.tag).toJson) ∧
    ∀ outputs : List BuildOutput, outputs.Perm config.outputs →
      ∀ ps' s'', { config with outputs }.Runs components s (.ok ps') s'' →
        (∀ p ∈ ps', ∀ f ∈ p.files, f.path ≠ manifest) →
          ∀ exports exports', s'.HasExports manifest exports → s''.HasExports manifest exports' →
            ∀ key, Entries.get? exports key = Entries.get? exports' key := by
  cases made with
  | made found passes =>
    obtain rfl := Option.some.inj (read.symm.trans found)
    refine ⟨?_, ?_⟩
    · intro t ht hregisters
      obtain ⟨exports, hexports, hget⟩ :=
        passes.exists_exports apart separate rereads ht hregisters
      refine ⟨exports, hexports, fun key hbelow value => ?_⟩
      rw [hget key hbelow, Option.map_eq_some_iff]
      constructor
      · rintro ⟨entry, hentry, rfl⟩
        obtain ⟨c, hc, hkey, rfl⟩ := ExportMap.get?_ofComponents.mp hentry
        exact ⟨c, hc, hkey, rfl⟩
      · rintro ⟨c, hc, hkey, rfl⟩
        exact ⟨_, ExportMap.get?_ofComponents.mpr ⟨c, hc, hkey, rfl⟩, rfl⟩
    · intro outputs hp ps' s'' again separate' exports exports' he he' key
      cases again with
      | made found' passes' =>
        have htargets := BuildConfig.angularTargets?_perm hp read found'
        exact passes.get?_exports_perm passes' rfl htargets apart separate separate' rereads he he'
          key

/-- A build with two targets that share a manifest, and one that has none. -/
def BuildConfig.shared : BuildConfig :=
  ⟨"/repo", [{ kind := customElementsKind }, .angular "lazy" [],
    .angular "first" (BuildOutput.fileEach ++ [("libraryPackageJson", .str "package.json")]),
    .angular "second" (BuildOutput.fileEach ++
      [("libraryPackageJson", .str "package.json"), ("exportSubpath", .str "elements")])]⟩

/-- The run of that build succeeds, and writes its manifest as no other file. -/
theorem BuildConfig.run_shared :
    ∃ ps, ((shared.run [Target.myInput]).run ({} : Store)).1 = .ok ps ∧
      ∀ p ∈ ps, ∀ f ∈ p.files, f.path ≠ "/repo/package.json" := by
  have hany : (((shared.run [Target.myInput]).run ({} : Store)).1.toOption.any
      fun ps => ps.all fun p => p.files.all fun f => f.path != "/repo/package.json") = true := by
    decide +kernel
  cases hr : ((shared.run [Target.myInput]).run ({} : Store)).1 with
  | error e =>
    rw [hr] at hany
    cases hany
  | ok ps =>
    rw [hr] at hany
    refine ⟨ps, rfl, ?_⟩
    simpa [Except.toOption] using hany

theorem BuildConfig.Runs.registersAll_shared :
    ∃ ps s' exports, BuildConfig.shared.Runs [Target.myInput] {} (.ok ps) s' ∧
      s'.HasExports "/repo/package.json" exports ∧
        Entries.get? exports "./components/my-input" =
          some (ExportEntry.ofTag "components" "my-input").toJson := by
  obtain ⟨ps, hr, separate⟩ := run_shared
  have made : BuildConfig.shared.Runs [Target.myInput] {} _ _ := Runs.of_run {}
  rw [hr] at made
  obtain ⟨targets, read⟩ : ∃ targets, BuildConfig.shared.angularTargets? = some targets :=
    ⟨_, rfl⟩
  have apart : SubpathsApart "/repo/package.json" "/repo" targets := by
    cases read
    decide +kernel
  have rereads : ({} : Store).Rereads "/repo/package.json"
      (exportMapsIn "/repo/package.json" "/repo" [Target.myInput] targets) := by
    refine Store.rereads_of_isPlain ?_ (le_refl 1) (by decide) _
    intro members hread
    cases hread
    exact Manifest.isPlain_nil 1
  obtain ⟨hexports, -⟩ := made.registersAll read apart separate rereads
  obtain ⟨t, ht, hregisters, hsub, hexcluded⟩ : ∃ t ∈ targets,
      t.registersIn "/repo" "/repo/package.json" = true ∧ t.exportSubpath = "components" ∧
        t.excluded = Target.perComponent.excluded := by
    cases read
    refine ⟨_, .tail _ (.head _), ?_, rfl, rfl⟩
    decide +kernel
  obtain ⟨exports, he, hget⟩ := hexports t ht hregisters
  have htrim : t.subpath = "components" := by
    unfold Target.subpath
    rw [hsub]
    decide +kernel
  rw [htrim] at hget
  refine ⟨ps, _, exports, made, he, ?_⟩
  refine (hget _ (by decide +kernel) _).mpr ⟨Target.myInput, ?_, rfl, rfl⟩
  rw [hexcluded, Target.select_myInput]
  exact List.mem_cons_self

end Runs

end ElementWrappers
