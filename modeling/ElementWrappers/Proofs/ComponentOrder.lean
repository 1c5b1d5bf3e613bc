import Mathlib
import ElementWrappers.Proofs.ElementTags
import ElementWrappers.Proofs.LocalNames

/-!
# The order of the components

A pass takes its components in the order of their tags. Where no two of those
that get a wrapper share a tag, nothing of a plan depends on the order they are
given in: `plan_eq_of_perm`.
-/

namespace ElementWrappers

namespace Component

variable {excluded : List String} {components components' : List Component}

/-- The order of tags. -/
def IsSorted (components : List Component) : Prop := components.Pairwise fun a b => a.tag ≤ b.tag

theorem perm_sortByTag (components : List Component) : (sortByTag components).Perm components :=
  List.mergeSort_perm _ _

theorem tag_le_trans (a b c : Component) (hab : decide (a.tag ≤ b.tag) = true)
    (hbc : decide (b.tag ≤ c.tag) = true) : decide (a.tag ≤ c.tag) = true :=
  decide_eq_true (le_trans (of_decide_eq_true hab) (of_decide_eq_true hbc))

theorem tag_le_total (a b : Component) :
    (decide (a.tag ≤ b.tag) || decide (b.tag ≤ a.tag)) = true := by
  simpa using le_total a.tag b.tag

theorem isSorted_sortByTag (components : List Component) : IsSorted (sortByTag components) := by
  have h : (sortByTag components).Pairwise fun a b => decide (a.tag ≤ b.tag) = true :=
    List.pairwise_mergeSort tag_le_trans tag_le_total components
  exact h.imp fun hab => of_decide_eq_true hab

/-- The components that are neither internal nor excluded, in the order given. -/
def wanted (excluded : List String) (components : List Component) : List Component :=
  components.filter (isWanted excluded)

/-- Components with different tags have one order by tag. -/
theorem IsSorted.eq_of_perm (h : IsSorted components) (h' : IsSorted components')
    (hp : components.Perm components') (hn : (components.map tag).Nodup) :
    components = components' := by
  refine hp.eq_of_pairwise (fun a b ha hb hab hba => ?_) h h'
  exact List.inj_on_of_nodup_map hn ha (hp.mem_iff.mpr hb) (le_antisymm hab hba)

/-- Sorting makes one list of all orders of the components that get a wrapper. -/
theorem wanted_sortByTag_eq_of_perm (hp : components.Perm components')
    (hn : ((wanted excluded components).map tag).Nodup) :
    wanted excluded (sortByTag components) = wanted excluded (sortByTag components') := by
  have hsorted : ∀ cs, IsSorted (wanted excluded (sortByTag cs)) :=
    fun cs => (isSorted_sortByTag cs).filter _
  have hfirst : (wanted excluded (sortByTag components)).Perm (wanted excluded components) :=
    (perm_sortByTag components).filter _
  have hall : (wanted excluded (sortByTag components)).Perm
      (wanted excluded (sortByTag components')) :=
    ((perm_sortByTag components).trans (hp.trans (perm_sortByTag components').symm)).filter _
  refine (hsorted _).eq_of_perm (hsorted _) hall ?_
  exact (hfirst.map tag).nodup_iff.mpr hn

theorem select_eq_of_perm (hp : components.Perm components')
    (hn : ((wanted excluded components).map tag).Nodup) :
    select excluded components = select excluded components' :=
  congrArg (firstOfEachTag {}) (wanted_sortByTag_eq_of_perm hp hn)

/-- The tags of a pass increase strictly. -/
theorem pairwise_tags_select : ((select excluded components).map tag).Pairwise (· < ·) := by
  have hsorted : IsSorted (select excluded components) :=
    ((isSorted_sortByTag components).filter _).sublist (firstOfEachTag_sublist _ _)
  have hle : ((select excluded components).map tag).Pairwise (· ≤ ·) :=
    List.pairwise_map.mpr hsorted
  exact (hle.and nodup_tags_select).imp fun h => lt_of_le_of_ne h.1 h.2

end Component

namespace Target

variable {t : Target} {components components' : List Component} {config : BuildConfig}

/-- A plan depends on its components through those that are selected. -/
theorem plan_congr_select
    (h : Component.select t.excluded components = Component.select t.excluded components')
    (view : FileView) : t.plan view components config = t.plan view components' config := by
  unfold Target.plan
  rw [h]

/-- The order in which components are given does not show in a plan, nor in the
error that there is instead. -/
theorem plan_eq_of_perm (hp : components.Perm components')
    (hn : ((Component.wanted t.excluded components).map Component.tag).Nodup) (view : FileView) :
    t.plan view components config = t.plan view components' config :=
  plan_congr_select (Component.select_eq_of_perm hp hn) view

/-- A public component and an internal one that share a tag, and one more. -/
def shared : List Component :=
  [emitter "my-list" "Item", { tag := "my-list", isInternal := true }, myInput]

theorem plan_eq_of_perm_shared :
    shared.Perm shared.reverse ∧
      ((Component.wanted perComponent.excluded shared).map Component.tag).Nodup ∧
      ∃ p, perComponent.plan (fun _ => .error .missing) shared repository = .ok p ∧
        perComponent.plan (fun _ => .error .missing) shared.reverse repository = .ok p := by
  have hp : shared.Perm shared.reverse := (List.reverse_perm shared).symm
  have hn : ((Component.wanted perComponent.excluded shared).map Component.tag).Nodup := by decide
  obtain ⟨p, h⟩ : ∃ p, perComponent.plan (fun _ => .error .missing) shared repository = .ok p :=
    ⟨_, rfl⟩
  exact ⟨hp, hn, p, h, (plan_eq_of_perm hp hn _).symm.trans h⟩

end Target

end ElementWrappers
