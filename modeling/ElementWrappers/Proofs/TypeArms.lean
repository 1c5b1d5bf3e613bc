import ElementWrappers.Proofs.Reading
import ElementWrappers.Proofs.TypeShapes

/-!
# Arms of printed types

A printed type reads as types without marks of their own, joined by marks. A
function type that returns a union reads as a union that begins with a function
type, since nothing is printed around the union.
-/

namespace ElementWrappers.TypeExpr

namespace Ty

/-- The first arm, and the others with the mark before each. -/
def arms : Ty → Ty × List (Mark × Ty)
  | join left mark right =>
    (left.arms.1, left.arms.2 ++ (mark, right.arms.1) :: right.arms.2)
  | function parameters result => (function parameters result.arms.1, result.arms.2)
  | t => (t, [])

/-- The further arms as printed. -/
def printArms (arms : List (Mark × Ty)) : List (Char × List Char) :=
  arms.map fun b => (b.1.char, b.2.print)

@[simp] theorem arms_join (left : Ty) (mark : Mark) (right : Ty) : (join left mark right).arms =
    (left.arms.1, left.arms.2 ++ (mark, right.arms.1) :: right.arms.2) := rfl

@[simp] theorem arms_function (parameters : List (Key × Ty)) (result : Ty) :
    (function parameters result).arms = (function parameters result.arms.1, result.arms.2) := rfl

theorem joined_printArms_append (pad x : List Char) (as : List (Mark × Ty)) (m : Mark) (b : Ty)
    (bs : List (Mark × Ty)) : joined pad x (printArms (as ++ (m, b) :: bs)) =
      joined pad x (printArms as) ++ (pad ++ m.char :: ' ' :: joined pad b.print (printArms bs)) := by
  simp [joined, printArms]

theorem print_eq_joined (t : Ty) : t.print = joined [' '] t.arms.1.print (printArms t.arms.2) := by
  have hone : ∀ {u : Ty}, u.arms = (u, []) →
      u.print = joined [' '] u.arms.1.print (printArms u.arms.2) := by
    intro u hu
    rw [hu]
    exact (List.append_nil _).symm
  induction t using Ty.induct with
  | path _ _ | generic _ _ _ _ | array _ _ | tuple _ _ | group _ _ | literal _ | object _ _ =>
    exact hone rfl
  | join left mark right ihl ihr =>
    rw [arms_join, joined_printArms_append, ← ihl, ← ihr]
    rfl
  | function parameters result _ ihr =>
    rw [arms_function, print, ihr, print]
    simp only [joined, List.append_assoc]

theorem arms_mapNames (F : Name → Name) (t : Ty) :
    (t.mapNames F).arms = (t.arms.1.mapNames F, t.arms.2.map fun b => (b.1, b.2.mapNames F)) := by
  induction t using Ty.induct with
  | path _ _ | generic _ _ _ _ | array _ _ | tuple _ _ | group _ _ | literal _ | object _ _ => rfl
  | join left mark right ihl ihr =>
    rw [mapNames, arms_join, arms_join, ihl, ihr]
    simp
  | function parameters result _ ihr =>
    rw [mapNames, arms_function, arms_function, ihr]
    rfl

theorem isArm_arms (t : Ty) : t.arms.1.isArm = true ∧ ∀ b ∈ t.arms.2, b.2.isArm = true := by
  have hone : ∀ {u : Ty}, u.isArm = true → u.arms = (u, []) →
      u.arms.1.isArm = true ∧ ∀ b ∈ u.arms.2, b.2.isArm = true := by
    intro u hu ha
    rw [ha]
    exact ⟨hu, fun b hb => absurd hb List.not_mem_nil⟩
  induction t using Ty.induct with
  | path _ _ | generic _ _ _ _ | array _ _ | tuple _ _ | group _ _ | literal _ | object _ _ =>
    exact hone rfl rfl
  | join left mark right ihl ihr =>
    refine ⟨ihl.1, fun b hb => ?_⟩
    rcases List.mem_append.mp hb with hb | hb
    · exact ihl.2 b hb
    · rcases List.mem_cons.mp hb with rfl | hb
      · exact ihr.1
      · exact ihr.2 b hb
  | function parameters result _ ihr => exact ihr

theorem parameterNames_firstArm {x : Name} (t : Ty) (h : x ∈ t.arms.1.parameterNames) :
    x ∈ t.parameterNames := by
  induction t using Ty.induct with
  | path _ _ | generic _ _ _ _ | array _ _ | tuple _ _ | group _ _ | literal _ | object _ _ => exact h
  | join left mark right ihl _ => exact List.mem_append_left _ (ihl h)
  | function parameters result _ ihr =>
    rcases List.mem_append.mp h with h | h
    · exact List.mem_append_left _ h
    · rcases List.mem_append.mp h with h | h
      · exact List.mem_append_right _ (List.mem_append_left _ h)
      · exact List.mem_append_right _ (List.mem_append_right _ (ihr h))

/-- Each arm is free of marks outside brackets. -/
theorem nested_arms (t : Ty) : Nested separators t.arms.1.print ∧
    ∀ r ∈ printArms t.arms.2, Nested separators r.2 := by
  obtain ⟨hfirst, hrest⟩ := isArm_arms t
  refine ⟨(isNested _).2 hfirst, fun r hr => ?_⟩
  obtain ⟨b, hb, rfl⟩ := List.mem_map.mp hr
  exact (isNested _).2 (hrest b hb)

theorem split_print (t : Ty) :
    split ['|', '&'] t.print = joinedPieces [' '] t.arms.1.print (printArms t.arms.2) := by
  have hsub : ['|', '&'] ⊆ separators := by decide
  have hpad : Nested ['|', '&'] [' '] := .plain (by decide) (by decide) .nil
  obtain ⟨hfirst, hrest⟩ := nested_arms t
  rw [print_eq_joined]
  refine split_joined hsub hpad (fun r hr => ⟨?_, (hrest r hr).mono hsub⟩) (hfirst.mono hsub)
  obtain ⟨b, -, rfl⟩ := List.mem_map.mp hr
  show b.1.char ∈ _
  cases b.1 <;> decide

end Ty

/-- Arms are read one after the other. -/
theorem Reader.Turns.joined {R : Reader} {l : Bool} {u v : Ty → List Char}
    {bs : List (Mark × Ty)} (h : ∀ b ∈ bs, R.Turns false (u b.2) (v b.2)) {x y : List Char}
    (hx : R.Turns l x y) :
    R.Turns l (joined [' '] x (bs.map fun b => (b.1.char, u b.2)))
      (joined [' '] y (bs.map fun b => (b.1.char, v b.2))) := by
  have hstep : ∀ (z : List Char) (r : Char × List Char) (rest : List (Char × List Char)),
      TypeExpr.joined [' '] z (r :: rest) = TypeExpr.joined [' '] (z ++ ([' ', r.1, ' '] ++ r.2)) rest := by
    intro z r rest
    simp [TypeExpr.joined]
  induction bs generalizing x y with
  | nil => simpa [TypeExpr.joined] using hx
  | cons b bs ih =>
    have hmark : separates [' ', b.1.char, ' '] = true := by cases b.1 <;> decide
    rw [List.map_cons, List.map_cons, hstep, hstep]
    exact ih (fun c hc => h c (List.mem_cons_of_mem _ hc))
      (hx.between hmark (fun hf => by cases hf) (h b List.mem_cons_self))

end ElementWrappers.TypeExpr
