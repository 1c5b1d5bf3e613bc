import Mathlib
import ElementWrappers.Proofs.ComponentOrder

/-!
# First public occurrences

Sorting keeps the order of the components with one tag, and the internal ones are left
out before the first of each tag is taken. So a component is selected exactly where it is
the first public one with its tag, unless the tag is excluded: `select_isExact`.
-/

namespace ElementWrappers.Component

variable {excluded : List String} {components : List Component} {c : Component} {name : String}

/-! ## Components with one tag -/

/-- Sorting leaves the components with one tag in their order. -/
theorem filter_tag_sortByTag (name : String) (components : List Component) :
    (sortByTag components).filter (·.tag == name) = components.filter (·.tag == name) := by
  have htag : ∀ a ∈ components.filter (·.tag == name), a.tag = name :=
    fun a ha => eq_of_beq (List.mem_filter.mp ha).2
  have hsame : (components.filter (·.tag == name)).Pairwise fun a b =>
      decide (a.tag ≤ b.tag) = true := by
    refine List.pairwise_of_forall_mem_list fun a ha b hb => ?_
    rw [htag a ha, htag b hb]
    exact decide_eq_true (le_refl name)
  have hsub : (components.filter (·.tag == name)).Sublist (sortByTag components) :=
    List.sublist_mergeSort tag_le_trans tag_le_total hsame List.filter_sublist
  have hall := hsub.filter (·.tag == name)
  rw [List.filter_eq_self.mpr fun a ha => (List.mem_filter.mp ha).2] at hall
  exact (hall.eq_of_length ((perm_sortByTag components).filter _).length_eq.symm).symm

/-- Of the components with a tag that is not defined yet, the first is taken. -/
theorem find?_firstOfEachTag (defined : Registry) (components : List Component) :
    (firstOfEachTag defined components).find? (·.tag == name) =
      if defined.isDefined name then none else components.find? (·.tag == name) := by
  induction components generalizing defined with
  | nil => rw [firstOfEachTag, List.find?_nil, ite_self]
  | cons first rest ih =>
    rw [firstOfEachTag]
    by_cases hname : first.tag = name
    · subst hname
      split
      · rename_i hdefined
        rw [ih, if_pos hdefined]
      · rw [List.find?_cons, List.find?_cons, beq_self_eq_true]
    · have hskip : ∀ cs : List Component,
          (first :: cs).find? (·.tag == name) = cs.find? (·.tag == name) := by
        intro cs
        rw [List.find?_cons, beq_false_of_ne hname]
      rw [hskip]
      split
      · exact ih defined
      · rw [hskip, ih]
        have hdefine : (defined.define first.tag).isDefined name = defined.isDefined name := by
          rw [Bool.eq_iff_iff, isDefined_define]
          exact or_iff_right fun h => hname h.symm
        rw [hdefine]

/-- The component selected for a tag is the first with it that gets a wrapper. -/
theorem find?_select (excluded : List String) (components : List Component) (name : String) :
    (select excluded components).find? (·.tag == name) =
      components.find? fun c => c.isWanted excluded && c.tag == name := by
  have hcomm : ∀ cs : List Component,
      (cs.filter (isWanted excluded)).find? (·.tag == name) =
        (cs.filter (·.tag == name)).find? (isWanted excluded) := by
    intro cs
    rw [List.find?_filter, List.find?_filter]
    simp only [and_comm]
  have hnone : ({} : Registry).isDefined name = false := rfl
  rw [select, find?_firstOfEachTag, hnone, if_neg Bool.false_ne_true, hcomm, filter_tag_sortByTag,
    ← hcomm, List.find?_filter]
  simp only [← Bool.and_eq_true, Bool.decide_eq_true]

theorem mem_select_iff :
    c ∈ select excluded components ↔
      (components.find? fun d => d.isWanted excluded && d.tag == c.tag) = some c := by
  rw [← find?_select]
  constructor
  · intro hc
    obtain ⟨d, hd⟩ : ∃ d, (select excluded components).find? (·.tag == c.tag) = some d := by
      rw [← Option.isSome_iff_exists, List.find?_isSome]
      exact ⟨c, hc, beq_self_eq_true _⟩
    have htag := List.find?_some hd
    rw [hd, List.inj_on_of_nodup_map nodup_tags_select (List.mem_of_find?_eq_some hd) hc
      (eq_of_beq htag)]
  · exact List.mem_of_find?_eq_some

/-! ## Occurrences -/

/-- The first public occurrence of a tag that is not excluded. -/
structure IsFirst (excluded : List String) (components : List Component)
    (i : Fin components.length) : Prop where
  isPublic : components[i].isInternal = false
  admitted : components[i].tag ∉ excluded
  first : ∀ j < i, components[j].tag = components[i].tag → components[j].isInternal = true

instance (excluded : List String) (components : List Component) (i : Fin components.length) :
    Decidable (IsFirst excluded components i) :=
  decidable_of_iff (components[i].isInternal = false ∧ components[i].tag ∉ excluded ∧
      ∀ j < i, components[j].tag = components[i].tag → components[j].isInternal = true)
    ⟨fun h => ⟨h.1, h.2.1, h.2.2⟩, fun h => ⟨h.1, h.2, h.3⟩⟩

theorem isWanted_iff :
    c.isWanted excluded = true ↔ c.isInternal = false ∧ c.tag ∉ excluded := by
  simp [isWanted]

/-- What is selected occurs first somewhere. -/
theorem mem_select_iff_isFirst :
    c ∈ select excluded components ↔ ∃ i, IsFirst excluded components i ∧ components[i] = c := by
  rw [mem_select_iff, List.find?_eq_some_iff_getElem]
  constructor
  · rintro ⟨hc, i, hi, rfl, hbefore⟩
    rw [Bool.and_eq_true, isWanted_iff] at hc
    refine ⟨⟨i, hi⟩, ⟨hc.1.1, hc.1.2, fun j hj htag => ?_⟩, rfl⟩
    have hj := hbefore j hj
    by_contra hpublic
    have hwanted : components[j].isWanted excluded = true :=
      isWanted_iff.mpr ⟨Bool.eq_false_of_not_eq_true hpublic, htag ▸ hc.1.2⟩
    rw [Bool.not_eq_true', Bool.and_eq_false_iff] at hj
    rcases hj with hj | hj
    · exact Bool.false_ne_true (hj.symm.trans hwanted)
    · exact beq_eq_false_iff_ne.mp hj htag
  · rintro ⟨i, h, rfl⟩
    refine ⟨?_, i, i.isLt, rfl, fun j hj => ?_⟩
    · rw [Bool.and_eq_true, isWanted_iff]
      exact ⟨⟨h.isPublic, h.admitted⟩, beq_self_eq_true _⟩
    · rw [Bool.not_eq_true', Bool.and_eq_false_iff]
      by_cases htag : components[j].tag = components[i].tag
      · have hinternal : components[j].isInternal = true := h.first ⟨j, hj.trans i.isLt⟩ hj htag
        refine .inl (Bool.eq_false_of_not_eq_true fun hwanted => ?_)
        exact Bool.false_ne_true ((isWanted_iff.mp hwanted).1.symm.trans hinternal)
      · exact .inr (beq_eq_false_iff_ne.mpr htag)

/-- Two first occurrences have different tags. -/
theorem IsFirst.eq_of_tag {i j : Fin components.length} (hi : IsFirst excluded components i)
    (hj : IsFirst excluded components j) (h : components[i].tag = components[j].tag) : i = j := by
  have hnot : ∀ {i j : Fin components.length}, IsFirst excluded components i →
      IsFirst excluded components j → components[i].tag = components[j].tag → ¬ i < j := by
    intro i j hi hj h hlt
    exact Bool.false_ne_true (hi.isPublic.symm.trans (hj.first i hlt h))
  rcases lt_trichotomy i j with hlt | he | hlt
  · exact absurd hlt (hnot hi hj h)
  · exact he
  · exact absurd hlt (hnot hj hi h.symm)

/-- The places of the first occurrences, in the order of tags. -/
def firstPlaces (excluded : List String) (components : List Component) :
    List (Fin components.length) :=
  ((List.finRange components.length).filter fun i => IsFirst excluded components i).mergeSort
    fun i j => decide (components[i].tag ≤ components[j].tag)

theorem mem_firstPlaces {i : Fin components.length} :
    i ∈ firstPlaces excluded components ↔ IsFirst excluded components i := by
  rw [firstPlaces, List.mem_mergeSort, List.mem_filter, decide_eq_true_iff]
  exact and_iff_right (List.mem_finRange i)

theorem nodup_firstPlaces : (firstPlaces excluded components).Nodup :=
  (List.mergeSort_perm _ _).nodup_iff.mpr ((List.nodup_finRange _).filter _)

/-- At these places stand the selected components. -/
theorem map_firstPlaces (excluded : List String) (components : List Component) :
    (firstPlaces excluded components).map (fun i => components[i]) = select excluded components := by
  have hsort : (firstPlaces excluded components).map (fun i => components[i]) =
      sortByTag (((List.finRange components.length).filter fun i =>
        IsFirst excluded components i).map fun i => components[i]) :=
    List.map_mergeSort fun _ _ _ _ => rfl
  have htags : (((firstPlaces excluded components).map fun i => components[i]).map tag).Nodup := by
    rw [List.map_map]
    refine List.Nodup.map_on (fun i hi j hj h => ?_) nodup_firstPlaces
    exact (mem_firstPlaces.mp hi).eq_of_tag (mem_firstPlaces.mp hj) h
  have hperm : ((firstPlaces excluded components).map fun i => components[i]).Perm
      (select excluded components) := by
    refine (List.perm_ext_iff_of_nodup htags.of_map nodup_tags_select.of_map).mpr fun c => ?_
    rw [mem_select_iff_isFirst, List.mem_map]
    exact exists_congr fun i => and_congr_left fun _ => mem_firstPlaces
  have hsorted : IsSorted (select excluded components) :=
    (List.pairwise_map.mp pairwise_tags_select).imp le_of_lt
  refine IsSorted.eq_of_perm ?_ hsorted hperm htags
  rw [hsort]
  exact isSorted_sortByTag _

/-- The selected components increase strictly by tag, and they are those at the places
where a public component with a tag that is not excluded occurs first. -/
theorem select_isExact (excluded : List String) (components : List Component) :
    (select excluded components).Pairwise (fun a b => a.tag < b.tag) ∧
      ∃ places : List (Fin components.length), places.Nodup ∧
        select excluded components = places.map (fun i => components[i]) ∧
        ∀ i, i ∈ places ↔ IsFirst excluded components i :=
  ⟨List.pairwise_map.mp pairwise_tags_select, firstPlaces excluded components, nodup_firstPlaces,
    (map_firstPlaces excluded components).symm, fun _ => mem_firstPlaces⟩

end ElementWrappers.Component
