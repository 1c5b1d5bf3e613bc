import Mathlib
import ElementWrappers.Proofs.HostEntries

/-!
# Groups of value accessor configurations

The groups are what the configurations of each kind make together, one for each kind
that occurs (`ofConfigs_eq`). So they depend on the configurations of each kind and the
order in which the kinds first occur, and on nothing else (`merges_ofConfigs`).
-/

namespace ElementWrappers.AccessorGroup

/-! ## First occurrences -/

section FirstOccurrences

variable {α : Type} [BEq α] [LawfulBEq α]

/-- Adding what is not there yet keeps the first occurrence of each item. -/
theorem foldl_addNew_nil (items : List α) : items.foldl addNew [] = items.eraseDups := by
  induction items using List.reverseRecOn with
  | nil => rfl
  | append_singleton items item ih =>
    rw [List.foldl_append, ih, List.eraseDups_append, List.foldl_cons, List.foldl_nil, addNew]
    by_cases hi : item ∈ items
    · simp [hi, List.removeAll]
    · simp [hi, List.removeAll, List.eraseDups_cons]

theorem nodup_eraseDups (items : List α) : items.eraseDups.Nodup :=
  foldl_addNew_nil items ▸ nodup_foldl_addNew List.nodup_nil

/-- Items that occurred before are no first occurrences. -/
theorem eraseDups_append_of_subset {items more : List α} (h : more ⊆ items) :
    (items ++ more).eraseDups = items.eraseDups := by
  have hnone : more.removeAll items = [] :=
    List.filter_eq_nil_iff.mpr fun item hi => by simpa using h hi
  rw [List.eraseDups_append, hnone, List.eraseDups_nil, List.append_nil]

end FirstOccurrences

/-! ## Merging -/

/-- What configurations of one kind are merged into. -/
def merged (k : AccessorKind) (cs : List AccessorConfig) : AccessorGroup where
  kind := k
  selectors := (cs.flatMap fun c => c.selectors.toList).eraseDups
  targets := (cs.map AccessorConfig.target).eraseDups

section Merging

variable {configs others : List AccessorConfig} {c : AccessorConfig} {g : AccessorGroup}

theorem eq_merged_of_mem_ofConfigs (h : g ∈ ofConfigs configs) :
    g = merged g.kind (configsOf g.kind configs) := by
  have heq := eq_of_mem_ofConfigs h
  rwa [foldl_addNew_nil, foldl_addNew_nil] at heq

theorem firstKinds_ofConfigs (configs : List AccessorConfig) :
    (ofConfigs configs).map kind = (configs.map AccessorConfig.kind).eraseDups := by
  rw [kinds_ofConfigs, foldl_addNew_nil]

/-- The groups are those of the kinds in the order in which they first occur, and each
is merged from the configurations of its kind. -/
theorem ofConfigs_eq (configs : List AccessorConfig) : ofConfigs configs =
    (configs.map AccessorConfig.kind).eraseDups.map fun k => merged k (configsOf k configs) :=
  calc ofConfigs configs
      = (ofConfigs configs).map fun g => merged g.kind (configsOf g.kind configs) :=
        (List.map_id _).symm.trans
          (List.map_congr_left fun _ hg => eq_merged_of_mem_ofConfigs hg)
    _ = _ := by rw [← firstKinds_ofConfigs, List.map_map]; rfl

theorem mem_kinds_iff {k : AccessorKind} :
    k ∈ configs.map AccessorConfig.kind ↔ configsOf k configs ≠ [] := by
  simp [configsOf]

/-- A group is made from a configuration, and so has a target. -/
theorem targets_ne_nil (h : g ∈ ofConfigs configs) : g.targets ≠ [] := by
  have hk : g.kind ∈ (configs.map AccessorConfig.kind).eraseDups :=
    firstKinds_ofConfigs configs ▸ List.mem_map_of_mem h
  obtain ⟨c, hc, hkind⟩ := List.mem_map.mp (List.mem_eraseDups.mp hk)
  exact List.ne_nil_of_mem ((mem_targets_iff h).mpr ⟨c, hc, hkind, rfl⟩)

/-- What its kind has already does not change a merged group. -/
theorem merged_append (ht : ∃ d ∈ configs, d.target = c.target)
    (hs : ∀ s ∈ c.selectors.toList, ∃ d ∈ configs, s ∈ d.selectors.toList) (k : AccessorKind) :
    merged k (configs ++ [c]) = merged k configs := by
  have hselectors : c.selectors.toList ⊆ configs.flatMap fun d => d.selectors.toList :=
    fun s hm => List.mem_flatMap.mpr (hs s hm)
  have htarget : [c.target] ⊆ configs.map AccessorConfig.target :=
    List.cons_subset.mpr ⟨List.mem_map.mpr ht, List.nil_subset _⟩
  rw [merged, List.flatMap_append, List.flatMap_singleton, eraseDups_append_of_subset hselectors,
    List.map_append, List.map_singleton, eraseDups_append_of_subset htarget]
  rfl

theorem ofConfigs_append (ht : ∃ d ∈ configsOf c.kind configs, d.target = c.target)
    (hs : ∀ s ∈ c.selectors.toList, ∃ d ∈ configsOf c.kind configs, s ∈ d.selectors.toList) :
    ofConfigs (configs ++ [c]) = ofConfigs configs := by
  have ⟨d, hd, _⟩ := ht
  have hkind : [c.kind] ⊆ configs.map AccessorConfig.kind :=
    List.cons_subset.mpr ⟨mem_kinds_iff.mpr (List.ne_nil_of_mem hd), List.nil_subset _⟩
  rw [ofConfigs_eq, ofConfigs_eq, List.map_append, List.map_singleton,
    eraseDups_append_of_subset hkind]
  refine List.map_congr_left fun k _ => ?_
  by_cases hk : c.kind = k
  · subst hk
    have hof : configsOf c.kind (configs ++ [c]) = configsOf c.kind configs ++ [c] := by
      simp [configsOf]
    rw [hof, merged_append ht hs]
  · have hof : configsOf k (configs ++ [c]) = configsOf k configs := by simp [configsOf, hk]
    rw [hof]

/-- Only the order of the groups depends on how the kinds are mixed. -/
theorem perm_ofConfigs (h : ∀ k, configsOf k others = configsOf k configs) :
    (ofConfigs others).Perm (ofConfigs configs) := by
  have hkinds : (others.map AccessorConfig.kind).eraseDups.Perm
      (configs.map AccessorConfig.kind).eraseDups := by
    refine (List.perm_ext_iff_of_nodup (nodup_eraseDups _) (nodup_eraseDups _)).mpr fun k => ?_
    rw [List.mem_eraseDups, List.mem_eraseDups, mem_kinds_iff, mem_kinds_iff, h]
  rw [ofConfigs_eq, ofConfigs_eq]
  simp only [h]
  exact hkinds.map _

end Merging

/-- What makes groups the merged configurations. -/
structure Merges (configs : List AccessorConfig) (groups : List AccessorGroup) : Prop where
  /-- One group for each kind that occurs, in the order of first occurrence. -/
  kinds : groups.map kind = (configs.map AccessorConfig.kind).eraseDups
  /-- The selectors of all configurations of the kind, each once. -/
  selectors : ∀ g ∈ groups, g.selectors =
    ((configsOf g.kind configs).flatMap fun c => c.selectors.toList).eraseDups
  /-- The targets of all configurations of the kind, each once. -/
  targets : ∀ g ∈ groups, g.targets =
    ((configsOf g.kind configs).map AccessorConfig.target).eraseDups

/-- The groups are the merged configurations. A configuration that adds nothing to its
kind does not change them, and configurations of different kinds may change places. -/
theorem merges_ofConfigs (configs : List AccessorConfig) :
    Merges configs (ofConfigs configs) ∧
      (∀ c : AccessorConfig, (∃ d ∈ configsOf c.kind configs, d.target = c.target) →
        (∀ s ∈ c.selectors.toList, ∃ d ∈ configsOf c.kind configs, s ∈ d.selectors.toList) →
          ofConfigs (configs ++ [c]) = ofConfigs configs) ∧
      ∀ others, (∀ k, configsOf k others = configsOf k configs) →
        (ofConfigs others).Perm (ofConfigs configs) := by
  refine ⟨⟨firstKinds_ofConfigs configs, ?_, ?_⟩, fun c => ofConfigs_append, fun others =>
    perm_ofConfigs⟩
  · exact fun g hg => congrArg AccessorGroup.selectors (eq_merged_of_mem_ofConfigs hg)
  · exact fun g hg => congrArg AccessorGroup.targets (eq_merged_of_mem_ofConfigs hg)

/-- Two text inputs with a checkbox between them. -/
def mixedConfigs : List AccessorConfig :=
  [⟨.one "my-input[type=text]", "myChange", "value", .text⟩,
    ⟨.one "my-checkbox", "myChange", "checked", .boolean⟩,
    ⟨.many ["my-textarea", "my-input[type=text]"], "myInput", "value", .text⟩]

theorem merges_ofConfigs_mixed :
    Merges mixedConfigs (ofConfigs mixedConfigs) ∧
      ofConfigs (mixedConfigs ++ [⟨.one "my-textarea", "myChange", "value", .text⟩]) =
        ofConfigs mixedConfigs ∧
      (ofConfigs (configsOf .boolean mixedConfigs ++ configsOf .text mixedConfigs)).Perm
        (ofConfigs mixedConfigs) := by
  obtain ⟨hmerges, happend, hperm⟩ := merges_ofConfigs mixedConfigs
  refine ⟨hmerges, happend _ ?_ ?_, hperm _ fun k => ?_⟩
  · decide_cbv
  · decide_cbv
  · cases k <;> rfl

end ElementWrappers.AccessorGroup
