import Mathlib
import ElementWrappers.Component.Selection
import ElementWrappers.Naming
import ElementWrappers.Proofs.ModuleLinks

/-!
# Tags of custom elements

A valid tag has at least two segments between its dashes, each of small letters
and digits. A pass takes each tag once.
-/

namespace ElementWrappers

namespace Naming

/-- The parts of a tag between its dashes. -/
def segments (tag : String) : List (List Char) := tag.toList.splitOn '-'

/-- A part of a valid tag. -/
structure IsSegment (s : List Char) : Prop where
  ne_nil : s ≠ []
  chars : ∀ c ∈ s, c.isLower = true ∨ c.isDigit = true

theorem isSegment_iff {s : List Char} :
    IsSegment s ↔ s ≠ [] ∧ s.all (fun c => c.isLower || c.isDigit) = true := by
  simp only [List.all_eq_true, Bool.or_eq_true]
  exact ⟨fun h => ⟨h.ne_nil, h.chars⟩, fun h => ⟨h.1, h.2⟩⟩

instance (s : List Char) : Decidable (IsSegment s) := decidable_of_iff' _ isSegment_iff

/-- A valid name of a custom element. -/
structure IsElementTag (tag : String) : Prop where
  compound : 2 ≤ (segments tag).length
  segments : ∀ s ∈ segments tag, IsSegment s

instance (tag : String) : Decidable (IsElementTag tag) :=
  decidable_of_iff (2 ≤ (segments tag).length ∧ ∀ s ∈ segments tag, IsSegment s)
    ⟨fun h => ⟨h.1, h.2⟩, fun h => ⟨h.compound, h.segments⟩⟩

theorem exists_mem_splitOn {x c : Char} {cs : List Char} (hc : c ∈ cs) (hx : c ≠ x) :
    ∃ piece ∈ cs.splitOn x, c ∈ piece := by
  induction cs with
  | nil => cases hc
  | cons d cs ih =>
    rw [List.splitOn_cons_eq_if_modifyHead]
    rcases List.mem_cons.mp hc with rfl | hc
    · obtain ⟨first, rest, hs⟩ := List.exists_cons_of_ne_nil (List.splitOn_ne_nil x cs)
      rw [if_neg (by simpa using hx), hs, List.modifyHead_cons]
      exact ⟨_, List.mem_cons_self, List.mem_cons_self⟩
    · obtain ⟨piece, hp, hm⟩ := ih hc
      split
      · exact ⟨piece, List.mem_cons_of_mem _ hp, hm⟩
      · obtain ⟨first, rest, hs⟩ := List.exists_cons_of_ne_nil (List.splitOn_ne_nil x cs)
        rw [hs, List.modifyHead_cons]
        rcases List.mem_cons.mp (hs ▸ hp) with rfl | hp
        · exact ⟨_, List.mem_cons_self, List.mem_cons_of_mem _ hm⟩
        · exact ⟨piece, List.mem_cons_of_mem _ hp, hm⟩

variable {tag : String}

namespace IsElementTag

theorem dash_mem (h : IsElementTag tag) : '-' ∈ tag.toList := by
  by_contra hd
  have hl := h.compound
  rw [Naming.segments, List.splitOn_eq_singleton hd, List.length_singleton] at hl
  omega

/-- The name of a wrapper file has the dash of its tag. -/
theorem dash_mem_fileName (h : IsElementTag tag) : '-' ∈ (tag ++ ".ts").toList := by
  rw [String.toList_append]
  exact List.mem_append_left _ h.dash_mem

/-- A tag has no other characters than dashes, small letters and digits. -/
theorem chars (h : IsElementTag tag) {c : Char} (hc : c ∈ tag.toList) :
    c = '-' ∨ c.isLower = true ∨ c.isDigit = true := by
  by_cases hd : c = '-'
  · exact .inl hd
  · obtain ⟨s, hs, hm⟩ := exists_mem_splitOn hc hd
    exact .inr ((h.segments s hs).chars c hm)

theorem isFileTag (h : IsElementTag tag) : Assembly.IsFileTag tag := by
  refine ⟨?_, fun hc => ?_, fun hc => ?_⟩
  · rintro rfl
    exact absurd h.dash_mem (by decide)
  · exact absurd (h.chars hc) (by decide)
  · exact absurd (h.chars hc) (by decide)

theorem isName (h : IsElementTag tag) : Path.IsName tag := by
  refine ⟨h.isFileTag.ne_empty, ?_, ?_, h.isFileTag.no_slash, h.isFileTag.no_backslash⟩
  · rintro rfl
    exact absurd h.dash_mem (by decide)
  · rintro rfl
    exact absurd h.dash_mem (by decide)

end IsElementTag

end Naming

/-! ## Selected components -/

namespace Component

variable {excluded : List String} {components : List Component} {c : Component}

theorem firstOfEachTag_sublist (defined : Registry) (components : List Component) :
    (firstOfEachTag defined components).Sublist components := by
  induction components generalizing defined with
  | nil => exact .slnil
  | cons first rest ih =>
    unfold firstOfEachTag
    split
    · exact (ih defined).cons first
    · exact (ih _).cons_cons first

theorem isDefined_define (r : Registry) (tag other : String) :
    (r.define tag).isDefined other = true ↔ other = tag ∨ r.isDefined other = true := by
  unfold Registry.define
  split
  · rename_i h
    refine ⟨.inr, ?_⟩
    rintro (rfl | ho)
    · exact h
    · exact ho
  · simp [Registry.isDefined, or_comm]

/-- Each tag is taken once, and none that is defined already. -/
theorem firstOfEachTag_nodup (defined : Registry) (components : List Component) :
    ((firstOfEachTag defined components).map tag).Nodup ∧
      ∀ c ∈ firstOfEachTag defined components, ¬ defined.isDefined c.tag = true := by
  induction components generalizing defined with
  | nil => exact ⟨List.nodup_nil, nofun⟩
  | cons first rest ih =>
    unfold firstOfEachTag
    split
    · exact ih defined
    · rename_i hfirst
      obtain ⟨hnodup, hnew⟩ := ih (defined.define first.tag)
      rw [List.map_cons, List.nodup_cons]
      refine ⟨⟨fun hm => ?_, hnodup⟩, fun c hc => ?_⟩
      · obtain ⟨c, hc, he⟩ := List.mem_map.mp hm
        exact hnew c hc ((isDefined_define _ _ _).mpr (.inl he))
      · rcases List.mem_cons.mp hc with rfl | hc
        · exact hfirst
        · exact fun hd => hnew c hc ((isDefined_define _ _ _).mpr (.inr hd))

/-- A tag that is not defined yet is taken. -/
theorem tag_mem_firstOfEachTag {defined : Registry} (hc : c ∈ components)
    (hd : ¬ defined.isDefined c.tag = true) :
    c.tag ∈ (firstOfEachTag defined components).map tag := by
  induction components generalizing defined with
  | nil => cases hc
  | cons first rest ih =>
    unfold firstOfEachTag
    split
    · rename_i hfirst
      rcases List.mem_cons.mp hc with rfl | hc
      · exact absurd hfirst hd
      · exact ih hc hd
    · rw [List.map_cons, List.mem_cons]
      by_cases he : c.tag = first.tag
      · exact .inl he
      · have hrest : c ∈ rest := (List.mem_cons.mp hc).resolve_left fun h => he (congrArg tag h)
        refine .inr (ih hrest fun hdefine => ?_)
        exact ((isDefined_define _ _ _).mp hdefine).elim he hd

theorem isWanted_of_mem_select (h : c ∈ select excluded components) :
    c ∈ components ∧ c.isWanted excluded = true := by
  have hc := List.mem_filter.mp ((firstOfEachTag_sublist _ _).subset h)
  exact ⟨List.mem_mergeSort.mp hc.1, hc.2⟩

theorem mem_of_mem_select (h : c ∈ select excluded components) : c ∈ components :=
  (isWanted_of_mem_select h).1

/-- The tags of a pass are those of the components that get a wrapper. -/
theorem mem_tags_select {name : String} :
    name ∈ (select excluded components).map tag ↔
      ∃ c ∈ components, c.isWanted excluded = true ∧ c.tag = name := by
  constructor
  · intro h
    obtain ⟨c, hc, rfl⟩ := List.mem_map.mp h
    obtain ⟨hm, hw⟩ := isWanted_of_mem_select hc
    exact ⟨c, hm, hw, rfl⟩
  · rintro ⟨c, hm, hw, rfl⟩
    exact tag_mem_firstOfEachTag (List.mem_filter.mpr ⟨List.mem_mergeSort.mpr hm, hw⟩)
      Bool.false_ne_true

/-- A pass has one component of each tag. -/
theorem nodup_tags_select : ((select excluded components).map tag).Nodup :=
  (firstOfEachTag_nodup _ _).1

end Component

end ElementWrappers
