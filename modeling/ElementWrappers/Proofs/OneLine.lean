import Mathlib
import ElementWrappers.Naming
import ElementWrappers.Proofs.LiteralSpacing
import ElementWrappers.Proofs.Qualify

/-!
# Names and types on one line

A tag without line feeds makes a class name without line feeds, and the payload type
of an event stands on one line next to it, however it is written and whatever the
names in its reference table are.
-/

namespace ElementWrappers

/-! ## Names -/

namespace Text

theorem ofNat_ne_newline {n : Nat} (h : 10 < n) : Char.ofNat n ≠ '\n' := by
  intro he
  by_cases hv : n.isValidChar
  · have hn := congrArg Char.toNat he
    rw [Char.toNat_ofNat, if_pos hv] at hn
    exact absurd hn (Nat.ne_of_gt h)
  · have hn := congrArg Char.toNat he
    rw [Char.toNat_ofNat, if_neg hv] at hn
    exact absurd hn (by decide)

theorem isUpper_toUpper {c : Char} (h : c.isLower = true) : c.toUpper.isUpper = true := by
  rw [Char.isUpper_toUpper_eq_isAlpha, Char.isAlpha, h, Bool.or_true]

theorem toUpper_ne_newline {c : Char} (h : c ≠ '\n') : c.toUpper ≠ '\n' := by
  by_cases hl : c.isLower = true
  · intro he
    exact absurd (isUpper_toUpper hl) (by rw [he]; decide)
  · rwa [Char.toUpper_eq_of_not_isLower hl]

theorem not_mem_uppercase {c : Char} (h : c ≠ '\n') : '\n' ∉ uppercase c := by
  have hexpansions : ∀ e ∈ uppercaseExpansions, ∀ n ∈ e.2, 10 < n := by decide +kernel
  have hruns : ∀ r ∈ uppercaseRuns, 10 < r.2.2.2 := by decide +kernel
  unfold uppercase
  split
  · exact fun hm => toUpper_ne_newline h (List.mem_singleton.mp hm).symm
  · split
    · rename_i image hl
      intro hm
      obtain ⟨n, hn, he⟩ := List.mem_map.mp hm
      obtain ⟨before, after, hsplit, -⟩ := List.lookup_eq_some_iff.mp hl
      have hmem : (c.toNat, image) ∈ uppercaseExpansions := hsplit ▸ by simp
      exact ofNat_ne_newline (hexpansions _ hmem n hn) he
    · split
      · rename_i hf
        intro hm
        have hrun := hruns _ (List.mem_of_find?_eq_some hf)
        exact ofNat_ne_newline (Nat.lt_of_lt_of_le hrun (Nat.le_add_right _ _))
          (List.mem_singleton.mp hm).symm
      · exact fun hm => h (List.mem_singleton.mp hm).symm

end Text

namespace Naming

theorem not_mem_className {tag : String} (h : '\n' ∉ tag.toList) :
    '\n' ∉ (className tag).toList := by
  rw [className, String.toList_ofList, List.mem_flatMap]
  rintro ⟨part, hp, hm⟩
  have hpart : '\n' ∉ part := fun hn => h ((Text.mem_splitOn hp).2 hn)
  cases part with
  | nil => cases hm
  | cons c cs =>
    obtain ⟨hc, hcs⟩ := List.ne_and_not_mem_of_not_mem_cons hpart
    exact (List.mem_append.mp hm).elim (Text.not_mem_uppercase hc.symm) hcs

/-- Only capital letters are new in the property name of an event. -/
theorem mem_camelChars {c : Char} {x : List Char} (h : c ∈ camelChars x) :
    c ∈ x ∨ c.isUpper = true := by
  induction x using camelChars.induct with
  | case1 d ds hl ih =>
    rw [camelChars, if_pos hl] at h
    rcases List.mem_cons.mp h with rfl | h
    · exact .inr (Text.isUpper_toUpper hl)
    · exact (ih h).imp_left fun h => List.mem_cons_of_mem _ (List.mem_cons_of_mem _ h)
  | case2 d ds hl ih =>
    rw [camelChars, if_neg hl] at h
    rcases List.mem_cons.mp h with rfl | h
    · exact .inl List.mem_cons_self
    · exact (ih h).imp_left (List.mem_cons_of_mem _)
  | case3 d ds hne ih =>
    rw [camelChars] at h
    · rcases List.mem_cons.mp h with rfl | h
      · exact .inl List.mem_cons_self
      · exact (ih h).imp_left (List.mem_cons_of_mem _)
    · exact hne
  | case4 =>
    rw [camelChars] at h
    cases h

theorem not_mem_camelCase {c : Char} (hc : c.isUpper = false) {name : String}
    (h : c ∉ name.toList) : c ∉ (camelCase name).toList := by
  rw [camelCase, String.toList_ofList]
  intro hm
  rcases mem_camelChars hm with hm | hu
  · exact h hm
  · rw [hc] at hu
    cases hu

theorem newline_not_mem_member {name : String} (h : '\n' ∉ name.toList) :
    '\n' ∉ (member name).toList := by
  unfold member quoted
  split <;> simp [h]

end Naming

/-! ## Types -/

namespace TypeExpr

variable {scope : Scope} {x : List Char}

theorem newline_not_mem_normalize (x : List Char) : '\n' ∉ normalize x :=
  Text.not_mem_trim (isTidy_respaced x).lines

section Scope

variable (hs : '\n' ∉ scope.className.toList)

include hs

theorem not_mem_localName {name : List Char} (h : '\n' ∉ name) : '\n' ∉ scope.localName name := by
  unfold Scope.localName
  split
  · exact h
  · refine List.not_mem_append (fun hm => ?_) h
    rcases List.mem_cons.mp hm with he | hm
    · exact absurd he (by decide)
    · exact hs hm

theorem not_mem_qualifyName {name : List Char} (h : '\n' ∉ name) :
    '\n' ∉ scope.qualifyName name := by
  unfold Scope.qualifyName
  split
  · exact h
  · exact not_mem_localName hs h

end Scope

theorem not_mem_renameMembers {g : List Char → List Char} (hg : ∀ name, '\n' ∉ name → '\n' ∉ g name)
    (q : Quotes) (hx : '\n' ∉ x) : '\n' ∉ renameMembers g q x := by
  induction q, x using renameMembers.induct with
  | case1 q =>
    rw [renameMembers.eq_def]
    exact hx
  | case2 q rest hn ih =>
    rw [renameMembers_noName hn]
    exact List.not_mem_cons_of_ne_of_not_mem (by decide) (ih (List.not_mem_of_not_mem_cons hx))
  | case3 q rest blanks name after hn hl ih =>
    obtain ⟨rfl, -, -, -⟩ := of_leadingName? hn
    simp only [List.mem_cons, List.mem_append, not_or] at hx
    obtain ⟨-, hblanks, hname, hafter⟩ := hx
    rw [renameMembers_name hn]
    refine List.not_mem_append ?_ (ih hafter)
    split
    · simp [hblanks, hname]
    · simp [hg name hname]
  | case4 q c rest hc ih =>
    rw [renameMembers_char hc]
    obtain ⟨hne, hrest⟩ := List.ne_and_not_mem_of_not_mem_cons hx
    exact List.not_mem_cons_of_ne_of_not_mem hne (ih hrest)

theorem not_mem_joinMembers {members : List (List Char × Option Char)}
    (h : ∀ m ∈ members, '\n' ∉ m.1 ∧ m.2 ≠ some '\n') (started : Bool) :
    '\n' ∉ joinMembers started members := by
  induction members generalizing started with
  | nil => exact List.not_mem_nil
  | cons m rest ih =>
    obtain ⟨hm, hrest⟩ := List.forall_mem_cons.mp h
    obtain ⟨text, _ | mark⟩ := m
    · exact List.not_mem_append hm.1 (ih hrest _)
    · have hmark : '\n' ≠ mark := fun he => hm.2 (congrArg some he.symm)
      rw [joinMembers]
      simp [hm.1, hmark, ih hrest true]

theorem not_mem_commas {items : List (List Char)} (h : ∀ item ∈ items, '\n' ∉ item) :
    '\n' ∉ commas items := by
  induction items with
  | nil => exact List.not_mem_nil
  | cons item rest ih =>
    obtain ⟨hitem, hrest⟩ := List.forall_mem_cons.mp h
    cases rest with
    | nil => simpa [commas] using hitem
    | cons next rest =>
      have hmore := ih hrest
      rw [commas] at hmore ⊢
      rw [List.intercalate_cons_cons]
      exact List.not_mem_append (List.not_mem_append hitem (by decide)) hmore

theorem Parted.not_mem {separators : List Char} {pieces : List Piece} (h : Parted separators pieces)
    (hn : '\n' ∉ separators) : ∀ p ∈ pieces, p.after ≠ some '\n' := by
  induction h with
  | last text => simp
  | part text hc h ih =>
    refine List.forall_mem_cons.mpr ⟨fun he => ?_, ih⟩
    exact hn (Option.some.inj he ▸ hc)

/-- Whatever form a text has, only its parts can bring in line feeds. -/
theorem Shape.Describes.not_mem_renamed (hs : '\n' ∉ scope.className.toList) (hx : '\n' ∉ x)
    {f : List Char → List Char} {s : Shape} (h : s.Describes x)
    (hf : ∀ part ∈ s.inner, '\n' ∉ f part) : '\n' ∉ s.renamed scope x f := by
  cases h with
  | fixed => exact hx
  | members =>
    refine not_mem_joinMembers (List.forall_mem_map.mpr fun p hp => ⟨?_, ?_⟩) _
    · exact hf _ (List.mem_map_of_mem hp)
    · exact (parted_splitFrom _ _ x).not_mem (by decide) p hp
  | object => exact not_mem_renameMembers (fun _ => not_mem_qualifyName hs) _ hx
  | array parts => exact List.not_mem_append (hf _ (List.mem_singleton_self _)) (by decide)
  | group parts => simpa [Shape.renamed] using hf _ (List.mem_singleton_self _)
  | @tuple inner parts =>
    have hitems : '\n' ∉ commas ((listItems inner).map f) :=
      not_mem_commas (List.forall_mem_map.mpr hf)
    simpa [Shape.renamed, enclosed] using hitems
  | generic parts =>
    obtain ⟨hbase, harguments⟩ := List.forall_mem_cons.mp hf
    have hitems := not_mem_commas (List.forall_mem_map.mpr harguments)
    simpa [Shape.renamed, enclosed] using ⟨hbase, hitems⟩
  | path isName parts dot =>
    rw [parts, List.mem_append, not_or] at hx
    exact List.not_mem_append (not_mem_qualifyName hs hx.1) hx.2
  | name isName => exact not_mem_qualifyName hs hx

theorem not_mem_qualify (hs : '\n' ∉ scope.className.toList) (hx : '\n' ∉ x) :
    '\n' ∉ qualify scope x := by
  induction hl : x.length using Nat.strong_induction_on generalizing x with
  | _ n ih =>
    have htrim := Text.not_mem_trim hx
    rw [qualify_eq]
    refine (Shape.describes_of _).not_mem_renamed hs htrim fun part hp => ?_
    have hlt := Nat.lt_of_lt_of_le (length_of_mem_inner hp) (Text.length_trim_le x)
    exact ih _ (hl ▸ hlt) (fun hm => htrim ((Shape.describes_of _).subset hp hm)) rfl

/-- A name with a line feed does not occur in a text without one. -/
theorem not_mem_renameFrom {name replacement : List Char} (hr : '\n' ∉ name → '\n' ∉ replacement)
    (hx : '\n' ∉ x) (before : List Char) (q : Quotes) (left : Nat) (kept : Bool) :
    '\n' ∉ renameFrom name replacement before q left kept x := by
  induction x generalizing before q left kept with
  | nil =>
    rw [renameFrom]
    split
    · rename_i h
      have hname : name = [] := by simpa using (Bool.and_eq_true_iff.mp h).1
      exact hr (hname ▸ List.not_mem_nil)
    · exact List.not_mem_nil
  | cons c rest ih =>
    obtain ⟨hc, hrest⟩ := List.ne_and_not_mem_of_not_mem_cons hx
    have hone : '\n' ∉ [c] := fun hm => hc (List.mem_singleton.mp hm)
    cases left with
    | succ n =>
      rw [renameFrom]
      refine List.not_mem_append ?_ (ih hrest _ _ _ _)
      split
      · exact hone
      · exact List.not_mem_nil
    | zero =>
      rw [renameFrom]
      split
      · rename_i hp
        have hname : '\n' ∉ name := fun hm => hx ((List.isPrefixOf_iff_prefix.mp hp).subset hm)
        split
        · refine List.not_mem_append (List.not_mem_append (hr hname) ?_) (ih hrest _ _ _ _)
          split
          · exact hone
          · exact List.not_mem_nil
        · exact List.not_mem_cons_of_ne_of_not_mem hc (ih hrest _ _ _ _)
      · exact List.not_mem_cons_of_ne_of_not_mem hc (ih hrest _ _ _ _)

theorem not_mem_renameAll (hs : '\n' ∉ scope.className.toList) (names : List String)
    (hx : '\n' ∉ x) : '\n' ∉ renameAll scope names x := by
  induction names generalizing x with
  | nil => exact hx
  | cons name rest ih =>
    exact ih (not_mem_renameFrom (not_mem_localName hs) hx [] {} 0 true)

end TypeExpr

/-- The payload type of an event stands on one line. -/
theorem Event.not_mem_resolvedType {className : String} (h : '\n' ∉ className.toList) (e : Event) :
    '\n' ∉ (e.resolvedType className).text.toList := by
  unfold Event.resolvedType TypeExpr.resolve
  dsimp only
  split
  · decide +kernel
  split
  · rw [String.toList_ofList]
    exact TypeExpr.newline_not_mem_normalize _
  · rw [String.toList_ofList]
    have htype := TypeExpr.newline_not_mem_normalize e.payload.written.toList
    exact TypeExpr.not_mem_renameAll h _ (TypeExpr.not_mem_qualify h htype)

end ElementWrappers
