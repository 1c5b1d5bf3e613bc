import Mathlib
import ElementWrappers.Proofs.PublicSurface

/-!
# The members of a wrapper class

A wrapper class declares the field of its element, the zone that its constructor keeps,
an output for each public event and, on request, a setter for each public property. An
output is called like its event in camel case, and two events take one name exactly if
they are the same in dash case. `hasMembers` says when all members have names of their
own.
-/

namespace ElementWrappers

open Text

/-! ## Dash case -/

namespace Naming

variable {c : Char} {x : List Char}

/-- A capital ASCII letter becomes a dash and its small letter. -/
def dashChars (x : List Char) : List Char :=
  x.flatMap fun c => if c.isUpper then ['-', c.toLower] else [c]

/-- The name of an event as it is written with dashes only. -/
def dashCase (name : String) : String := String.ofList (dashChars name.toList)

theorem dashChars_cons_of_isUpper (h : c.isUpper = true) (x : List Char) :
    dashChars (c :: x) = '-' :: c.toLower :: dashChars x := by
  rw [dashChars, List.flatMap_cons, if_pos h]
  rfl

theorem dashChars_cons_of_not_isUpper (h : ¬ c.isUpper = true) (x : List Char) :
    dashChars (c :: x) = c :: dashChars x := by
  rw [dashChars, List.flatMap_cons, if_neg h]
  rfl

theorem dashChars_of_forall (h : ∀ c ∈ x, ¬ c.isUpper = true) : dashChars x = x := by
  induction x with
  | nil => rfl
  | cons c x ih =>
    obtain ⟨hc, hx⟩ := List.forall_mem_cons.mp h
    rw [dashChars_cons_of_not_isUpper hc, ih hx]

theorem camelChars_cons_of_ne (h : c ≠ '-') (x : List Char) :
    camelChars (c :: x) = c :: camelChars x := by
  rw [camelChars]
  rintro d ds rfl
  exact absurd rfl h

/-- A dash stays where no small letter follows it. -/
theorem camelChars_dash (h : ∀ c ∈ x.head?, ¬ c.isLower = true) :
    camelChars ('-' :: x) = '-' :: camelChars x := by
  cases x with
  | nil => simp [camelChars]
  | cons c x => rw [camelChars, if_neg (h c rfl)]

/-- Camel case can be undone. -/
theorem dashChars_camelChars (x : List Char) : dashChars (camelChars x) = dashChars x := by
  have hdash : ¬ '-'.isUpper = true := by decide
  induction x using camelChars.induct with
  | case1 c x hl ih =>
    have hu : ¬ c.isUpper = true := Char.not_isUpper_of_isLower hl
    rw [camelChars, if_pos hl, dashChars_cons_of_isUpper (Text.isUpper_toUpper hl), ih,
      Char.toLower_toUpper_eq_toLower, Char.toLower_eq_of_not_isUpper hu,
      dashChars_cons_of_not_isUpper hdash, dashChars_cons_of_not_isUpper hu]
  | case2 c x hl ih =>
    rw [camelChars, if_neg hl, dashChars_cons_of_not_isUpper hdash, ih,
      dashChars_cons_of_not_isUpper hdash]
  | case3 c x hne ih =>
    rw [camelChars]
    · by_cases hu : c.isUpper = true
      · rw [dashChars_cons_of_isUpper hu, ih, dashChars_cons_of_isUpper hu]
      · rw [dashChars_cons_of_not_isUpper hu, ih, dashChars_cons_of_not_isUpper hu]
    · exact hne
  | case4 => rfl

/-- So can dash case. -/
theorem camelChars_dashChars (x : List Char) : camelChars (dashChars x) = camelChars x := by
  have hdash : ¬ '-'.isUpper = true := by decide
  have hupper : ∀ {c : Char} (x : List Char), c.isUpper = true →
      camelChars ('-' :: c.toLower :: x) = c :: camelChars x := by
    intro c x hu
    have hl : c.toLower.isLower = true := by
      rw [Char.isLower_toLower_eq_isAlpha, Char.isAlpha, hu, Bool.true_or]
    rw [camelChars, if_pos hl, Char.toUpper_toLower_eq_toUpper,
      Char.toUpper_eq_of_not_isLower (Char.not_isLower_of_isUpper hu)]
  induction x using camelChars.induct with
  | case1 c x hl ih =>
    rw [dashChars_cons_of_not_isUpper hdash,
      dashChars_cons_of_not_isUpper (Char.not_isUpper_of_isLower hl), camelChars, if_pos hl, ih,
      camelChars, if_pos hl]
  | case2 c x hl ih =>
    -- What a capital letter becomes begins with a dash, which is no small letter either.
    have hhead : ∀ d ∈ (dashChars (c :: x)).head?, ¬ d.isLower = true := by
      intro d hd
      by_cases hu : c.isUpper = true
      · rw [dashChars_cons_of_isUpper hu, List.head?_cons, Option.mem_some_iff] at hd
        exact hd ▸ by decide
      · rw [dashChars_cons_of_not_isUpper hu, List.head?_cons, Option.mem_some_iff] at hd
        exact hd ▸ hl
    rw [dashChars_cons_of_not_isUpper hdash, camelChars_dash hhead, ih, camelChars, if_neg hl]
  | case3 c x hne ih =>
    by_cases hu : c.isUpper = true
    · have hc : c ≠ '-' := by
        rintro rfl
        exact hdash hu
      rw [dashChars_cons_of_isUpper hu, hupper _ hu, ih, camelChars_cons_of_ne hc]
    · rw [dashChars_cons_of_not_isUpper hu]
      by_cases hc : c = '-'
      · have hx : x = [] := by
          cases x with
          | nil => rfl
          | cons d ds => exact absurd rfl (hne d ds hc)
        rw [hx]
        rfl
      · rw [camelChars_cons_of_ne hc, ih, camelChars_cons_of_ne hc]
  | case4 => rfl

/-- Two events take one name if they are the same in dash case, and only then. -/
theorem camelCase_eq_iff (name name' : String) :
    camelCase name = camelCase name' ↔ dashCase name = dashCase name' := by
  rw [camelCase, camelCase, dashCase, dashCase, String.ofList_inj, String.ofList_inj]
  constructor
  · intro h
    rw [← dashChars_camelChars, h, dashChars_camelChars]
  · intro h
    rw [← camelChars_dashChars, h, camelChars_dashChars]

theorem camelChars_of_not_mem (h : '-' ∉ x) : camelChars x = x := by
  induction x with
  | nil => simp [camelChars]
  | cons c x ih =>
    obtain ⟨hc, hx⟩ := List.ne_and_not_mem_of_not_mem_cons h
    rw [camelChars_cons_of_ne hc.symm, ih hx]

theorem dashChars_of_not_mem (h : '-' ∉ dashChars x) : dashChars x = x := by
  refine dashChars_of_forall fun c hc hu => h ?_
  exact List.mem_flatMap.mpr ⟨c, hc, by simp [hu]⟩

/-- A name without dashes and capital letters is the name of no other event. -/
theorem camelCase_eq_iff_of_forall {fixed : String} (hd : '-' ∉ fixed.toList)
    (hu : ∀ c ∈ fixed.toList, ¬ c.isUpper = true) (name : String) :
    camelCase name = fixed ↔ name = fixed := by
  have hcamel : camelCase fixed = fixed := by
    rw [camelCase, camelChars_of_not_mem hd, String.ofList_toList]
  constructor
  · intro h
    have hdash := (camelCase_eq_iff name fixed).mp (h.trans hcamel.symm)
    rw [dashCase, dashCase, String.ofList_inj, dashChars_of_forall hu] at hdash
    rw [dashChars_of_not_mem (hdash ▸ hd)] at hdash
    exact String.toList_inj.mp hdash
  · rintro rfl
    exact hcamel

end Naming

/-! ## Members with names of their own -/

namespace Component

variable {c : Component}

/-- What the members of a wrapper class are called. -/
def memberNames (c : Component) (options : WrapperOptions) : List String :=
  (wrapperMembers (c.setterNames options) c.outputs).map ClassMember.name

theorem memberNames_eq (c : Component) (options : WrapperOptions) : c.memberNames options =
    "el" :: (c.setterNames options ++ c.outputs.map Prod.fst) ++ ["z"] := by
  have hname : ClassMember.name ∘ .setter = id := rfl
  simp only [memberNames, wrapperMembers, List.map_append, List.map_cons, List.map_map,
    List.map_nil, hname, List.map_id]
  rfl

/-- No two public events are the same in dash case. -/
def KeepsEventsApart (c : Component) : Prop :=
  ∀ e ∈ c.publicEvents, ∀ e' ∈ c.publicEvents,
    Naming.dashCase e.name = Naming.dashCase e'.name → e.name = e'.name

/-- No name makes two members of a wrapper class. -/
structure KeepsApart (c : Component) (options : WrapperOptions) : Prop where
  events : c.KeepsEventsApart
  outputs : ∀ e ∈ c.publicEvents, e.name ≠ "el" ∧ e.name ≠ "z"
  setters : options.inlineProperties = true → ∀ p ∈ c.publicProperties,
    p.name ≠ "el" ∧ p.name ≠ "z" ∧ ∀ e ∈ c.publicEvents, Naming.camelCase e.name ≠ p.name

/-- Events that are named in dash case are kept apart. -/
theorem keepsEventsApart (h : ∀ e ∈ c.publicEvents, ∀ l ∈ e.name.toList, ¬ l.isUpper = true) :
    c.KeepsEventsApart := by
  intro e he e' he' hd
  rw [Naming.dashCase, Naming.dashCase, String.ofList_inj, Naming.dashChars_of_forall (h e he),
    Naming.dashChars_of_forall (h e' he')] at hd
  exact String.toList_inj.mp hd

theorem map_fst_outputs (c : Component) :
    c.outputs.map Prod.fst = (c.publicEvents.map Event.name).map Naming.camelCase := by
  rw [outputs, List.map_map, List.map_map]
  rfl

theorem nodup_outputs_iff (he : (c.publicEvents.map Event.name).Nodup) :
    (c.outputs.map Prod.fst).Nodup ↔ c.KeepsEventsApart := by
  rw [map_fst_outputs, List.nodup_map_iff_inj_on he]
  simp only [List.forall_mem_map, Naming.camelCase_eq_iff]
  rfl

/-- An output has a fixed name of small letters only if its event has it. -/
theorem not_mem_outputs_iff {fixed : String} (hd : '-' ∉ fixed.toList)
    (hu : ∀ l ∈ fixed.toList, ¬ l.isUpper = true) :
    fixed ∉ c.outputs.map Prod.fst ↔ ∀ e ∈ c.publicEvents, e.name ≠ fixed := by
  rw [map_fst_outputs, List.mem_map]
  simp only [Naming.camelCase_eq_iff_of_forall hd hu, exists_eq_right, List.mem_map, not_exists,
    not_and]

theorem nodup_enclosed_iff {first last : String} (hne : first ≠ last) (names : List String) :
    (first :: names ++ [last]).Nodup ↔ names.Nodup ∧ first ∉ names ∧ last ∉ names := by
  have hperm : (first :: names ++ [last]).Perm (first :: last :: names) :=
    (List.perm_append_singleton last names).cons first
  rw [hperm.nodup_iff, List.nodup_cons, List.nodup_cons, List.mem_cons, not_or]
  tauto

variable {options : WrapperOptions}

theorem mem_setterNames_iff {name : String} : name ∈ c.setterNames options ↔
    options.inlineProperties = true ∧ ∃ p ∈ c.publicProperties, p.name = name := by
  unfold setterNames
  split <;> simp_all

theorem nodup_setterNames (h : (c.publicProperties.map Property.name).Nodup) :
    (c.setterNames options).Nodup := by
  unfold setterNames
  split
  · exact h
  · exact List.nodup_nil

/-- The members of a class have names of their own exactly if nothing makes two of them. -/
theorem nodup_memberNames_iff (hp : (c.publicProperties.map Property.name).Nodup)
    (he : (c.publicEvents.map Event.name).Nodup) :
    (c.memberNames options).Nodup ↔ c.KeepsApart options := by
  have hel : "el" ∉ c.outputs.map Prod.fst ↔ ∀ e ∈ c.publicEvents, e.name ≠ "el" :=
    not_mem_outputs_iff (by simp) (by simp)
  have hz : "z" ∉ c.outputs.map Prod.fst ↔ ∀ e ∈ c.publicEvents, e.name ≠ "z" :=
    not_mem_outputs_iff (by simp) (by simp)
  rw [memberNames_eq, nodup_enclosed_iff (by decide), List.nodup_append, List.mem_append,
    List.mem_append, not_or, not_or, hel, hz, nodup_outputs_iff he]
  constructor
  · rintro ⟨⟨-, hevents, hapart⟩, ⟨hsel, hoel⟩, hsz, hoz⟩
    refine ⟨hevents, fun e he => ⟨hoel e he, hoz e he⟩, fun hi p hm => ?_⟩
    have hname : p.name ∈ c.setterNames options := mem_setterNames_iff.mpr ⟨hi, p, hm, rfl⟩
    refine ⟨fun h => hsel (h ▸ hname), fun h => hsz (h ▸ hname), fun e he h => ?_⟩
    have hout : Naming.camelCase e.name ∈ c.outputs.map Prod.fst := by
      rw [map_fst_outputs]
      exact List.mem_map_of_mem (List.mem_map_of_mem he)
    exact hapart _ hname _ hout h.symm
  · intro h
    refine ⟨⟨nodup_setterNames hp, h.events, ?_⟩, ⟨?_, fun e he => (h.outputs e he).1⟩, ?_,
      fun e he => (h.outputs e he).2⟩
    · intro name hs name' ho heq
      obtain ⟨hi, p, hm, rfl⟩ := mem_setterNames_iff.mp hs
      rw [map_fst_outputs, List.map_map] at ho
      obtain ⟨e, hem, rfl⟩ := List.mem_map.mp ho
      exact (h.setters hi p hm).2.2 e hem heq.symm
    · intro hs
      obtain ⟨hi, p, hm, hn⟩ := mem_setterNames_iff.mp hs
      exact (h.setters hi p hm).1 hn
    · intro hs
      obtain ⟨hi, p, hm, hn⟩ := mem_setterNames_iff.mp hs
      exact (h.setters hi p hm).2.1 hn

/-- The members of the class and of the interface of a wrapper. -/
structure HasMembers (c : Component) (options : WrapperOptions) : Prop where
  declared : DeclaresMembers (Wrapper.ofComponent c options).definition (Naming.className c.tag)
    (wrapperMembers (c.setterNames options) c.outputs)
  interface : ∀ block ∈ (Wrapper.ofComponent c options).interfaceBlock, ∃ members,
    block = interfaceText (Naming.className c.tag) members ∧
      List.Forall₂ InterfaceMember.Declares members c.outputs
  distinct : (c.memberNames options).Nodup ↔ c.KeepsApart options
  distinctOutputs : (c.outputs.map Prod.fst).Nodup ↔ c.KeepsEventsApart

/-- A toolbar with a property, two events and an internal one. -/
def toolbar : Component where
  tag := "my-toolbar"
  properties := [{ name := "dense" }]
  events :=
    [{ name := "my-focus" }, { name := "my-blur" }, { name := "myFocus", isInternal := true }]

/-- An event that is spelt in two ways. -/
def focusTwice : Component where
  tag := "my-a"
  events := [{ name := "my-focus" }, { name := "myFocus" }]

end Component

end ElementWrappers
