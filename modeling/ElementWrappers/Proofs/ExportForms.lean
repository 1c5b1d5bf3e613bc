import Mathlib
import ElementWrappers.Proofs.ExportHistory

/-!
# Forms of an export map

`exports` is a map of subpaths, or a short form that stands for the root entry
alone: a text, a list, or an object of conditions. A merge turns texts and lists
into the root entry of a map. Conditions it keeps as they are, next to the
subpaths of the components: `merge_isRootedAt_iff` says that this is the only
form that a merge spoils.
-/

namespace ElementWrappers

namespace ExportMap

/-- Whether a key names a subpath of the package, or its root. -/
def IsSubpath (key : String) : Prop := key.toList.head? = some '.'

instance (key : String) : Decidable (IsSubpath key) := inferInstanceAs (Decidable (_ = _))

/-- An object of conditions. -/
def IsConditions (exports : Option Json) : Prop :=
  ∃ members : Json.Members, exports = some (.obj members) ∧ members ≠ [] ∧
    ∀ key ∈ members.keys, ¬ IsSubpath key

/-- The forms that Node takes for `exports`, each with the entry point of the
package itself. -/
inductive Resolves : Option Json → Option Json → Prop
  | absent : Resolves none none
  | null : Resolves (some .null) none
  | path (text : String) : Resolves (some (.str text)) (some (.str text))
  | fallbacks (items : List Json) : Resolves (some (.arr items)) (some (.arr items))
  | subpaths (members : Json.Members) (all : ∀ key ∈ members.keys, IsSubpath key) :
    Resolves (some (.obj members)) (Entries.get? members ".")
  | conditions {members : Json.Members} (are : IsConditions (some (.obj members))) :
    Resolves (some (.obj members)) (some (.obj members))

/-- A map of subpaths only, with this entry point at its root. -/
structure IsRootedAt (exports : Json.Members) (root : Option Json) : Prop where
  subpaths : ∀ key ∈ exports.keys, IsSubpath key
  root : Entries.get? exports "." = root

/-! ## Keys of a merged map -/

theorem isSubpath_of_isBelow {subpath key : String} (h : IsBelow subpath key) : IsSubpath key := by
  obtain ⟨rest, hr⟩ := h
  rw [IsSubpath, ← hr]
  simp

theorem not_isBelow_root (subpath : String) : ¬ IsBelow subpath "." := by
  rintro ⟨rest, hr⟩
  have hl := congrArg List.length hr
  simp at hl

variable {m : ExportMap} {exports : Json.Members} {key : String}

/-- A merge keeps the keys that it does not own, and adds those of its entries. -/
theorem mem_keys_mergeExports :
    key ∈ (m.mergeExports exports).keys ↔
      key ∈ m.entries.keys ∨ key ∈ exports.keys ∧ ¬ IsBelow m.subpath key := by
  have hm : key ∈ (m.mergeExports exports).keys ↔ key ∈ m.entries.entries.keys ∨ _ :=
    Entries.mem_keys_insertAll
  rw [hm, Entries.mem_keys_filter (p := fun key => !m.owns key || m.entries.entries.has key),
    Bool.or_eq_true, Bool.not_eq_true', ← Bool.not_eq_true, owns_iff, Entries.has_iff_mem_keys]
  show key ∈ m.entries.keys ∨ _ ∧ (_ ∨ key ∈ m.entries.keys) ↔ _
  tauto

/-- What a merge neither adds nor owns stays as it is. -/
theorem get?_mergeExports_of_not_isBelow (h : key ∉ m.entries.keys) (hb : ¬ IsBelow m.subpath key) :
    Entries.get? (m.mergeExports exports) key = Entries.get? exports key := by
  refine (Entries.get?_insertAll_of_not_mem h).trans ?_
  refine Entries.get?_filter_keys (p := fun key => !m.owns key || m.entries.entries.has key) ?_
  have ho : m.owns key = false := Bool.eq_false_of_not_eq_true fun h => hb (owns_iff.mp h)
  rw [ho, Bool.not_false, Bool.true_or]

variable {components : List Component} {exportSubpath : String}

theorem isBelow_of_mem_ofComponents
    (h : key ∈ (ofComponents components exportSubpath).entries.keys) :
    IsBelow (trimSlashes exportSubpath) key := by
  obtain ⟨entry, he, rfl⟩ := List.mem_map.mp h
  obtain ⟨c, -, rfl⟩ := eq_of_mem_ofComponents he
  refine ⟨c.tag.toList, ?_⟩
  rw [← String.toList_append]
  rfl

/-! ## Merged maps -/

/-- Conditions are no map of subpaths. -/
theorem IsConditions.exists_key {members : Json.Members} (h : IsConditions (some (.obj members))) :
    ∃ key ∈ members.keys, ¬ IsSubpath key := by
  obtain ⟨found, he, hne, hall⟩ := h
  cases he
  obtain ⟨entry, he⟩ := List.exists_mem_of_ne_nil _ hne
  exact ⟨entry.1, List.mem_map_of_mem he, hall _ (List.mem_map_of_mem he)⟩

/-- A merge of the components' entries gives a map of subpaths exactly when it
started from one, and keeps its root. -/
theorem isRootedAt_mergeExports_iff {members : Json.Members} {root : Option Json} :
    IsRootedAt ((ofComponents components exportSubpath).mergeExports members) root ↔
      IsRootedAt members root := by
  have hkeep : Entries.get? ((ofComponents components exportSubpath).mergeExports members) "." =
      Entries.get? members "." :=
    get?_mergeExports_of_not_isBelow (fun h => not_isBelow_root _ (isBelow_of_mem_ofComponents h))
      (not_isBelow_root _)
  constructor
  · rintro ⟨hsub, hget⟩
    refine ⟨fun key hk => ?_, hkeep.symm.trans hget⟩
    by_cases hb : IsBelow (trimSlashes exportSubpath) key
    · exact isSubpath_of_isBelow hb
    · exact hsub key (mem_keys_mergeExports.mpr (.inr ⟨hk, hb⟩))
  · rintro ⟨hsub, hget⟩
    refine ⟨fun key hk => ?_, hkeep.trans hget⟩
    rcases mem_keys_mergeExports.mp hk with hk | ⟨hk, -⟩
    · exact isSubpath_of_isBelow (isBelow_of_mem_ofComponents hk)
    · exact hsub key hk

/-- What a value becomes before the merge is a map of subpaths with its entry
point, unless it is an object of conditions. -/
theorem isRootedAt_membersOf_iff {value root : Option Json} (h : Resolves value root) :
    IsRootedAt (membersOf value) root ↔ ¬ IsConditions value := by
  -- A text and a list become the only entry of a map, the root.
  have hsingle : ∀ v : Json, IsRootedAt [(".", v)] (some v) := by
    refine fun v => ⟨fun key hk => ?_, rfl⟩
    obtain rfl := List.mem_singleton.mp hk
    show IsSubpath "."
    decide
  have hempty : IsRootedAt [] none := ⟨nofun, rfl⟩
  have hobject : ∀ {v : Option Json}, (∀ members, v ≠ some (.obj members)) → ¬ IsConditions v := by
    rintro v hv ⟨members, he, -⟩
    exact hv members he
  cases h with
  | absent => exact iff_of_true hempty (hobject nofun)
  | null => exact iff_of_true hempty (hobject nofun)
  | path text => exact iff_of_true (hsingle _) (hobject nofun)
  | fallbacks items => exact iff_of_true (hsingle _) (hobject nofun)
  | subpaths members all =>
    refine iff_of_true ⟨all, rfl⟩ fun hc => ?_
    obtain ⟨key, hk, hn⟩ := hc.exists_key
    exact hn (all key hk)
  | @conditions members are =>
    refine iff_of_false (fun hr => ?_) (not_not.mpr are)
    obtain ⟨key, hk, hn⟩ := are.exists_key
    exact hn (hr.subpaths key hk)

/-- A merge of the components' entries leaves a map of subpaths only, with the
entry point that the package had, exactly when that was no object of
conditions. -/
theorem merge_isRootedAt_iff {manifest : Json.Members} {root : Option Json}
    (h : Resolves (Entries.get? manifest "exports") root) :
    (∃ exports, Entries.get? ((ofComponents components exportSubpath).merge manifest) "exports" =
        some (.obj exports) ∧ IsRootedAt exports root) ↔
      ¬ IsConditions (Entries.get? manifest "exports") := by
  rw [← isRootedAt_membersOf_iff h, ← @isRootedAt_mergeExports_iff components exportSubpath,
    get?_exports_merge]
  constructor
  · rintro ⟨exports, he, hr⟩
    cases he
    exact hr
  · exact fun hr => ⟨_, rfl, hr⟩

/-- A manifest with an entry point and the subpath of a component that is gone. -/
def mapped : Json.Members :=
  [("exports", .obj [(".", .str "./index.mjs"), ("./components/my-list", .null)])]

theorem merge_isRootedAt_iff_mapped :
    ∃ exports, Entries.get? ((ofComponents [Target.myInput] "components").merge mapped) "exports" =
      some (.obj exports) ∧ IsRootedAt exports (some (.str "./index.mjs")) := by
  have hform : Resolves (Entries.get? mapped "exports") (some (.str "./index.mjs")) :=
    .subpaths [(".", .str "./index.mjs"), ("./components/my-list", .null)] (by decide)
  refine (merge_isRootedAt_iff hform).mpr ?_
  intro hc
  obtain ⟨key, hk, hn⟩ := hc.exists_key
  revert key
  decide

/-- A manifest whose entry point is an object of conditions. -/
def conditional : Json.Members :=
  [("exports", .obj [("import", .str "./index.mjs"), ("require", .str "./index.cjs")])]

/-- Conditions end up beside the subpaths, and the package has no entry point. -/
theorem not_isRootedAt_conditional :
    ∃ root exports, Resolves (Entries.get? conditional "exports") (some root) ∧
      Entries.get? ((ofComponents [Target.myInput] "components").merge conditional) "exports" =
        some (.obj exports) ∧
      Entries.keys exports = ["import", "require", "./components/my-input"] ∧
      ¬ IsRootedAt exports (some root) := by
  refine ⟨_, _, .conditions ⟨_, rfl, by decide, by decide⟩, rfl, by decide, fun h => ?_⟩
  cases h.root

end ExportMap

end ElementWrappers
