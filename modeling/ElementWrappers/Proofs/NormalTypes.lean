import Mathlib
import ElementWrappers.Proofs.LiteralSpacing
import ElementWrappers.Proofs.Respacing

/-!
# Normal forms of type expressions

Normalizing a type expression changes nothing but its white space, and what it makes of a text
is kept when it is normalized again: `isNormalForm_iff` says which texts are kept.
-/

namespace ElementWrappers.TypeExpr

/-- The characters of a text that are not white space. -/
def solid (text : List Char) : List Char := text.filter fun c => !Text.isBlank c

/-- A text on one line, without blanks around it and without two blanks side by side, and with
one space behind each comma that is not its last character. -/
structure IsNormalForm (text : List Char) : Prop where
  lines : '\n' ∉ text
  ends : Text.IsTrimmed text
  blanks : ∀ before c d after, text = before ++ c :: d :: after →
    ¬ (Text.isBlank c = true ∧ Text.isBlank d = true)
  commas : ∀ before c after, text = before ++ ',' :: c :: after →
    c = ' ' ∧ ∃ d rest, after = d :: rest ∧ Text.isBlank d = false

section NormalForm

variable {x y gap : List Char}

/-! ## What is kept -/

theorem solid_append (x y : List Char) : solid (x ++ y) = solid x ++ solid y :=
  List.filter_append x y

theorem solid_cons (c : Char) (x : List Char) : solid (c :: x) = solid [c] ++ solid x :=
  solid_append [c] x

theorem solid_blanks (h : ∀ c ∈ gap, Text.isBlank c = true) : solid gap = [] :=
  List.filter_eq_nil_iff.mpr fun c hc => by simp [h c hc]

theorem solid_blanks_append (h : ∀ c ∈ gap, Text.isBlank c = true) (x : List Char) :
    solid (gap ++ x) = solid x := by
  rw [solid_append, solid_blanks h, List.nil_append]

theorem Respaced.solid_eq (h : Respaced x y) : solid x = solid y := by
  induction h with
  | nil => rfl
  | @char c x y _ ih => rw [solid_cons c x, solid_cons c y, ih]
  | blanks _ _ hb hb' _ ih => rw [solid_blanks_append hb, solid_blanks_append hb', ih]
  | @comma gap gap' x y hb hb' _ ih =>
    rw [solid_cons ',' (gap ++ x), solid_cons ',' (gap' ++ y), solid_blanks_append hb,
      solid_blanks_append hb', ih]

theorem solid_trim (x : List Char) : solid (Text.trim x) = solid x := by
  obtain ⟨gap, gap', hg, hg', he⟩ := Text.exists_trim_append x
  conv_rhs => rw [he]
  rw [solid_blanks_append hg, solid_append, solid_blanks hg', List.append_nil]

theorem solid_normalize (x : List Char) : solid (normalize x) = solid x :=
  calc solid (normalize x)
      = solid (spaceCommas (collapse (joinLines x))) := solid_trim _
    _ = solid (collapse (joinLines x)) := (respaced_spaceCommas _).solid_eq
    _ = solid (joinLines x) := (respaced_collapse _).solid_eq
    _ = solid x := (respaced_joinLines x).solid_eq

/-! ## Normal forms -/

theorem IsTidy.of_append {before after : List Char} (h : IsTidy (before ++ (x ++ after))) :
    IsTidy x := by
  obtain ⟨-, hrest, -⟩ := List.isChain_append.mp h.pairs
  refine ⟨fun hm => h.lines ?_, (List.isChain_append.mp hrest).1⟩
  exact List.mem_append_right _ (List.mem_append_left _ hm)

/-- A tidy text without blanks at its ends is a normal form. -/
theorem IsTidy.isNormalForm (h : IsTidy x) (ht : Text.IsTrimmed x) : IsNormalForm x := by
  have hpairs : ∀ before c d after, x = before ++ c :: d :: after → AreTidy c d :=
    fun _ _ _ _ he => List.isChain_iff_forall_rel_of_append_cons_cons.mp h.pairs he
  refine ⟨h.lines, ht, fun before c d after he => (hpairs before c d after he).1,
    fun before c after he => ?_⟩
  have hspace : c = ' ' := (hpairs before ',' c after he).2 rfl
  refine ⟨hspace, ?_⟩
  cases after with
  | nil =>
    -- the space would be the last character
    have hlast := ht.last ' ' (by simp [he, hspace])
    cases hlast
  | cons d rest =>
    have hnext := (hpairs (before ++ [',']) c d rest (by simp [he])).1
    rw [hspace] at hnext
    exact ⟨d, rest, rfl, Bool.eq_false_of_not_eq_true fun hd => hnext ⟨by decide, hd⟩⟩

theorem IsNormalForm.isTidy (h : IsNormalForm x) : IsTidy x := by
  refine ⟨h.lines, ?_⟩
  refine List.isChain_iff_forall_rel_of_append_cons_cons.mpr fun c d before after he => ?_
  refine ⟨h.blanks before c d after he, ?_⟩
  rintro rfl
  exact (h.commas before d after he).1

/-- A comma at the end of a tidy text gets a space. -/
theorem spaceCommas_concat (h : (x ++ [',']).IsChain AreTidy) :
    spaceCommas (x ++ [',']) = x ++ [','] ++ [' '] := by
  obtain ⟨hx, -, hjoint⟩ := List.isChain_append.mp h
  have hlast : x.getLast? ≠ some ',' := by
    intro hl
    cases (hjoint ',' hl ',' rfl).2 rfl
  have hcomma : spaceCommas [','] = [',', ' '] := by
    rw [spaceCommas, if_pos rfl, List.dropWhile_nil, spaceCommas]
  rw [spaceCommas_append_cons (by decide), spaceCommas_eq hx hlast, hcomma, List.append_assoc]
  rfl

theorem IsNormalForm.normalize_eq (h : IsNormalForm x) : normalize x = x := by
  by_cases hl : x.getLast? = some ','
  · obtain ⟨init, rfl⟩ := List.getLast?_eq_some_iff.mp hl
    have hlines : ∀ c ∈ init ++ [','], c ≠ '\n' := fun c hc he => h.lines (he ▸ hc)
    have htrim := h.ends.trim_padded Text.isBlank_nil Text.isBlank_singleton
    rw [List.nil_append] at htrim
    rw [normalize, Spaced.joinLines_eq hlines, collapse_eq (h.isTidy.pairs.imp fun _ _ hp => hp.1),
      spaceCommas_concat h.isTidy.pairs, htrim]
  · show Text.trim (respaced x) = x
    rw [(respaced_eq_iff hl).mpr h.isTidy, h.ends.trim_eq]

theorem isNormalForm_normalize (x : List Char) : IsNormalForm (normalize x) := by
  obtain ⟨gap, gap', -, -, he⟩ := Text.exists_trim_append (respaced x)
  have htidy : IsTidy (gap ++ (normalize x ++ gap')) := he ▸ isTidy_respaced x
  exact htidy.of_append.isNormalForm (Text.isTrimmed_trim _)

/-- Normalizing keeps the normal forms and nothing else. -/
theorem isNormalForm_iff : IsNormalForm x ↔ normalize x = x := by
  constructor
  · exact IsNormalForm.normalize_eq
  · intro h
    rw [← h]
    exact isNormalForm_normalize x

/-- Normalizing brings a text into a normal form with the same characters but for white space,
which stays as it is when it is normalized again. -/
theorem normalize_keepsSolid (text : List Char) :
    IsNormalForm (normalize text) ∧ solid (normalize text) = solid text ∧
      normalize (normalize text) = normalize text :=
  ⟨isNormalForm_normalize text, solid_normalize text,
    isNormalForm_iff.mp (isNormalForm_normalize text)⟩

end NormalForm

end ElementWrappers.TypeExpr
