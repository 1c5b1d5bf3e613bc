import Mathlib
import ElementWrappers.Proofs.Regeneration
import ElementWrappers.Proofs.SharedManifest

/-!
# What a merge leaves of a manifest

A merge sets the keys below one subpath to the entries of the components, and
`sideEffects` to `false`. It neither changes nor moves any other member, and what other
components had registered below the subpath does not show: `merge_isExact`.
-/

namespace ElementWrappers

namespace ExportMap

variable {components : List Component} {exportSubpath subpath : String} {m other : ExportMap}
  {exports manifest : Json.Members}

/-! ## Members that a merge does not set -/

/-- The members of a manifest besides the two that a merge sets. -/
def otherMembers (manifest : Json.Members) : Json.Members :=
  manifest.filter fun member => member.1 != "exports" && member.1 != "sideEffects"

/-- The members of an export map that do not lie below the subpath. -/
def foreignMembers (subpath : String) (exports : Json.Members) : Json.Members :=
  exports.filter fun member => !decide (IsBelow subpath member.1)

theorem otherMembers_merge (m : ExportMap) (manifest : Json.Members) :
    otherMembers (m.merge manifest) = otherMembers manifest := by
  have hset : ∀ {key : String} (entries : Json.Members) (value : Json),
      (key != "exports" && key != "sideEffects") = false →
        otherMembers (Entries.insert entries key value) = otherMembers entries :=
    fun entries value hkey => Entries.filter_insert_of_neg
      (p := fun key => key != "exports" && key != "sideEffects") entries value hkey
  unfold merge
  rw [hset _ _ rfl, hset _ _ rfl]

/-- A merge leaves out owned keys only, and what it inserts is owned. -/
theorem foreignMembers_mergeExports (hm : m.IsContained) (exports : Json.Members) :
    foreignMembers m.subpath (m.mergeExports exports) = foreignMembers m.subpath exports := by
  have hentries : ∀ key ∈ m.entries.entries.keys, (!decide (IsBelow m.subpath key)) = false :=
    fun key hk => by rw [decide_eq_true (hm key hk), Bool.not_true]
  have hinsert : foreignMembers m.subpath (m.mergeExports exports) = foreignMembers m.subpath
      (exports.filter fun member => !m.owns member.1 || m.entries.entries.has member.1) :=
    Entries.filter_insertAll_of_neg (p := fun key => !decide (IsBelow m.subpath key)) hentries
  rw [hinsert, foreignMembers, List.filter_filter, foreignMembers]
  refine List.filter_congr fun member _ => ?_
  by_cases hb : IsBelow m.subpath member.1
  · rw [decide_eq_true hb, Bool.not_true, Bool.false_and]
  · have howns : m.owns member.1 = false := Bool.eq_false_iff.mpr fun h => hb (owns_iff.mp h)
    rw [howns, Bool.not_false, Bool.true_or, Bool.and_true]

theorem get?_sideEffects_merge (m : ExportMap) (manifest : Json.Members) :
    Entries.get? (m.merge manifest) "sideEffects" = some (.bool false) :=
  Entries.get?_insert_self _ _ _

theorem subpath_ofComponents (components : List Component) (exportSubpath : String) :
    (ofComponents components exportSubpath).subpath = trimSlashes exportSubpath := rfl

/-! ## One merge -/

/-- What a manifest is after the entries of some components are merged into it: the
members that it has set, and those that it has not. -/
structure IsMerged (components : List Component) (subpath : String)
    (manifest merged exports : Json.Members) : Prop where
  registered : Entries.get? merged "exports" = some (.obj exports)
  sideEffects : Entries.get? merged "sideEffects" = some (.bool false)
  others : otherMembers merged = otherMembers manifest
  owned : ∀ key value, IsBelow subpath key → (Entries.get? exports key = some value ↔
    ∃ c ∈ components, key = ExportMap.key subpath c.tag ∧
      value = (ExportEntry.ofTag subpath c.tag).toJson)
  /-- A map of subpaths keeps the others in their order. -/
  foreign : ∀ members, Entries.get? manifest "exports" = some (.obj members) →
    foreignMembers subpath exports = foreignMembers subpath members
  /-- Any other value becomes the root entry. -/
  root : ∀ value, Entries.get? manifest "exports" = some value → value ≠ .null →
    (∀ members, value ≠ .obj members) → foreignMembers subpath exports = [(".", value)]
  none : Entries.get? manifest "exports" = none ∨ Entries.get? manifest "exports" = some .null →
    foreignMembers subpath exports = []

theorem isMerged_merge (hm : m.IsContained) (hentries : ∀ {key entry},
      m.entries.get? key = some entry ↔ ∃ c ∈ components,
        key = ExportMap.key m.subpath c.tag ∧ entry = .ofTag m.subpath c.tag)
    (manifest : Json.Members) :
    IsMerged components m.subpath manifest (m.merge manifest)
      (m.mergeExports (exportsOf manifest)) := by
  have hforeign := foreignMembers_mergeExports hm (exportsOf manifest)
  refine ⟨get?_exports_merge m manifest, get?_sideEffects_merge m manifest,
    otherMembers_merge m manifest, ?_, ?_, ?_, ?_⟩
  · intro key value hb
    rw [get?_mergeExports_of_isBelow hb, Option.map_eq_some_iff]
    constructor
    · rintro ⟨entry, he, rfl⟩
      obtain ⟨c, hc, hkey, rfl⟩ := hentries.mp he
      exact ⟨c, hc, hkey, rfl⟩
    · rintro ⟨c, hc, hkey, rfl⟩
      exact ⟨_, hentries.mpr ⟨c, hc, hkey, rfl⟩, rfl⟩
  · intro members he
    rw [hforeign, exportsOf, he]
    rfl
  · intro value he hnull hobj
    have hmembers : membersOf (some value) = [(".", value)] := by
      cases value with
      | null => exact absurd rfl hnull
      | obj members => exact absurd rfl (hobj members)
      | _ => rfl
    rw [hforeign, exportsOf, he, hmembers, foreignMembers, List.filter_cons,
      decide_eq_false (not_isBelow_root _)]
    rfl
  · intro he
    rw [hforeign, exportsOf]
    rcases he with he | he
    · rw [he]
      rfl
    · rw [he]
      rfl

/-! ## Merges one after the other -/

/-- The same manifest but for the order of its export map. -/
structure SameExports (manifest manifest' : Json.Members) : Prop where
  keys : manifest.keys = manifest'.keys
  others : otherMembers manifest = otherMembers manifest'
  sideEffects : Entries.get? manifest "sideEffects" = Entries.get? manifest' "sideEffects"
  exports : ∃ exports exports', Entries.get? manifest "exports" = some (.obj exports) ∧
    Entries.get? manifest' "exports" = some (.obj exports') ∧
      ∀ key, Entries.get? exports key = Entries.get? exports' key

theorem keys_merge_congr {manifest' : Json.Members} (h : manifest.keys = manifest'.keys) :
    (m.merge manifest).keys = (other.merge manifest').keys :=
  Entries.keys_insert_congr (Entries.keys_insert_congr h)

/-- A second merge finds both members that it sets. -/
theorem keys_merge_merge : (m.merge (other.merge manifest)).keys = (other.merge manifest).keys := by
  have hexports : "exports" ∈ (other.merge manifest).keys :=
    Entries.mem_keys_insert.mpr (.inr (Entries.mem_keys_insert.mpr (.inl rfl)))
  have hside : "sideEffects" ∈ (other.merge manifest).keys :=
    Entries.mem_keys_insert.mpr (.inl rfl)
  exact (Entries.keys_insert_of_mem (Entries.mem_keys_insert.mpr (.inr hside))).trans
    (Entries.keys_insert_of_mem hexports)

/-- What was merged below the same subpath before does not show. -/
theorem sameExports_merge (hm : m.IsContained) (ho : other.IsContained)
    (h : other.subpath = m.subpath) (manifest : Json.Members) :
    SameExports (m.merge (other.merge manifest)) (m.merge manifest) := by
  refine ⟨keys_merge_merge.trans (keys_merge_congr rfl), ?_, ?_, ?_⟩
  · rw [otherMembers_merge, otherMembers_merge, otherMembers_merge]
  · rw [get?_sideEffects_merge, get?_sideEffects_merge]
  · refine ⟨_, _, get?_exports_merge _ _, get?_exports_merge _ _, fun key => ?_⟩
    show Entries.get? (m.mergeExports (exportsOf (other.merge manifest))) key =
      Entries.get? (m.mergeExports (exportsOf manifest)) key
    by_cases hb : IsBelow m.subpath key
    · rw [get?_mergeExports_of_isBelow hb, get?_mergeExports_of_isBelow hb]
    · have hb' : ¬ IsBelow other.subpath key := h ▸ hb
      rw [get?_mergeExports_of_not_isBelow (fun hk => hb (hm key hk)) hb,
        get?_mergeExports_of_not_isBelow (fun hk => hb (hm key hk)) hb, exportsOf_merge,
        get?_mergeExports_of_not_isBelow (fun hk => hb' (ho key hk)) hb']

end ExportMap

end ElementWrappers
