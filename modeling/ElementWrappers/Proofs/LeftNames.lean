import Mathlib
import ElementWrappers.Proofs.KeptWords

/-!
# Referenced names that are left

Every reference in the position of a type is written under its local name, but for
the element type of a rest element, which stands behind dots like the member of a
qualified name: `resolve_leavesRest`. A literal that ends in an escaped backslash
seems open, and so hides the names behind it.
-/

namespace ElementWrappers.TypeExpr

/-- More than one dot stands right before: a rest element, and no member of a
qualified name. -/
def IsRest (before : List Char) : Prop := ['.', '.'] <:+ before

theorem IsRest.getLast?_eq {before : List Char} (h : IsRest before) :
    before.getLast? = some '.' := by
  obtain ⟨x, rfl⟩ := h
  simp

instance (before : List Char) : Decidable (IsRest before) :=
  inferInstanceAs (Decidable (['.', '.'] <:+ before))

/-- A backslash stands right before another. -/
def HasDoubleBackslash (before : List Char) : Prop := ['\\', '\\'] <:+: before

instance (before : List Char) : Decidable (HasDoubleBackslash before) :=
  inferInstanceAs (Decidable (['\\', '\\'] <:+: before))

/-- A whole word that is neither inside a literal, nor the member of a qualified name,
nor the key of an object. -/
structure IsTypePosition (before w after : List Char) : Prop extends IsWordAt before w after where
  literal : literalAfter before = none
  member : before.getLast? = some '.' → IsRest before
  key : isKey before.reverse after = false

instance (before w after : List Char) : Decidable (IsTypePosition before w after) :=
  decidable_of_iff (IsWordAt before w after ∧ literalAfter before = none ∧
      (before.getLast? = some '.' → IsRest before) ∧ isKey before.reverse after = false)
    ⟨fun h => ⟨h.1, h.2.1, h.2.2.1, h.2.2.2⟩, fun h => ⟨h.1, h.2, h.3, h.4⟩⟩

/-- Of the names to be imported none is left in the position of a type, but for those
that already begin like local names. -/
def Scope.RenamesAll (scope : Scope) (text : List Char) : Prop :=
  ∀ before w after, text = before ++ (w ++ after) → IsTypePosition before w after →
    String.ofList w ∈ scope.importedNames → scope.stem <+: w

/-! ## Literals -/

/-- Both readings of literals are at the same point. -/
structure Quotes.Agrees (q : Quotes) (l : Option Literal) : Prop where
  opened : q.opened = l.map Literal.quote
  escaped : ∀ d, l = some d → (d.escaped = true ↔ q.previous = some '\\')

section Literals

variable {q : Quotes} {l : Option Literal} {c : Char} {before : List Char}

/-- Without double backslashes it does not matter whether a backslash may itself be
escaped. -/
theorem Quotes.Agrees.step (h : q.Agrees l) (hc : q.previous = some '\\' → c ≠ '\\') :
    (q.step c).Agrees (Literal.step l c) := by
  obtain ⟨hopened, hescaped⟩ := h
  cases l with
  | none =>
    rw [Option.map_none] at hopened
    by_cases hq : isQuote c = true
    · have hslash : c ≠ '\\' := by
        rintro rfl
        cases hq
      refine ⟨by simp [Quotes.step, Literal.step, hopened, hq], fun d hd => ?_⟩
      rw [Literal.step, if_pos hq] at hd
      cases hd
      exact iff_of_false Bool.false_ne_true fun h => hslash (Option.some.inj h)
    · refine ⟨by simp [Quotes.step, Literal.step, hopened, hq], fun d hd => ?_⟩
      rw [Literal.step, if_neg hq] at hd
      cases hd
  | some d =>
    rw [Option.map_some] at hopened
    have hd := hescaped d rfl
    by_cases he : d.escaped = true
    · -- the escaped character is no backslash
      have hslash := hc (hd.mp he)
      refine ⟨by simp [Quotes.step, Literal.step, hopened, he, hd.mp he], fun e h => ?_⟩
      rw [Literal.step, if_pos he] at h
      cases h
      exact iff_of_false Bool.false_ne_true fun h => hslash (Option.some.inj h)
    · have hprevious : q.previous ≠ some '\\' := fun h => he (hd.mpr h)
      by_cases hquote : c = d.quote
      · refine ⟨by simp [Quotes.step, Literal.step, hopened, he, hprevious, hquote], fun e h => ?_⟩
        rw [Literal.step, if_neg he, if_pos hquote] at h
        cases h
      · refine ⟨by simp [Quotes.step, Literal.step, hopened, he, hquote], fun e h => ?_⟩
        rw [Literal.step, if_neg he, if_neg hquote] at h
        cases h
        simp [Quotes.step]

theorem agrees_run (h : ¬ HasDoubleBackslash before) :
    (before.foldl Quotes.step {}).Agrees (literalAfter before) ∧
      (before.foldl Quotes.step {}).previous = before.getLast? := by
  induction before using List.reverseRecOn with
  | nil => exact ⟨⟨rfl, nofun⟩, rfl⟩
  | append_singleton x c ih =>
    obtain ⟨hagrees, hprevious⟩ := ih fun hx => h (hx.trans (List.prefix_append x [c]).isInfix)
    have hc : (x.foldl Quotes.step {}).previous = some '\\' → c ≠ '\\' := by
      rw [hprevious]
      rintro hlast rfl
      obtain ⟨y, rfl⟩ := List.getLast?_eq_some_iff.mp hlast
      exact h ⟨y, [], by simp⟩
    rw [literalAfter, List.foldl_append, List.foldl_append, List.getLast?_concat]
    exact ⟨hagrees.step hc, rfl⟩

theorem opened_of_literal (h : ¬ HasDoubleBackslash before) (hl : literalAfter before = none) :
    (before.foldl Quotes.step {}).opened = none := by
  rw [(agrees_run h).1.opened, hl]
  rfl

end Literals

/-! ## References -/

section References

variable {scope : Scope} {written : String} {before after w : List Char}

theorem IsTypePosition.isUsed_iff (h : IsTypePosition before w after)
    (hb : ¬ HasDoubleBackslash before) : IsUsed before after ↔ ¬ IsRest before := by
  constructor
  · exact fun hu hr => hu.dot hr.getLast?_eq
  · intro hr
    exact ⟨fun hd => hr (h.member hd), h.key, opened_of_literal hb h.literal⟩

/-- What is left was not renamed, so it was no use. -/
theorem not_isUsed_of_renamed {o : Occurrence} (hat : IsWordAt before w after)
    (hm : String.ofList w ∈ scope.importedNames) (hstem : ¬ scope.stem <+: w)
    (h : o.renamed (renameWord scope scope.importedNames) = .at before w after) :
    ¬ IsUsed before after := by
  rw [← uses_at hat, ← h]
  by_cases hu : o.uses = true
  · exfalso
    have hw := congrArg Occurrence.word h
    rw [Occurrence.renamed, if_pos hu] at hw
    replace hw : renameWord scope scope.importedNames o.word = w := hw
    by_cases hi : String.ofList o.word ∈ scope.importedNames
    · rw [renameWord, if_pos hi] at hw
      exact hstem (hw ▸ Scope.stem_prefix_localName o.word)
    · rw [renameWord, if_neg hi] at hw
      exact hi (hw ▸ hm)
  · rw [Occurrence.renamed, if_neg hu]
    exact hu

/-- Of the references of an open expression only rest elements are left, and what stands
behind a double backslash. In plain expressions every other one is renamed, and no
rest element is. -/
theorem resolve_leavesRest (hopen : IsOpen written)
    (className : ∀ c ∈ scope.className.toList, isIdentifierChar c = true)
    (names : ∀ name ∈ scope.importedNames, IsWord name.toList) :
    (∀ before w after, (resolve scope written).text.toList = before ++ (w ++ after) →
      IsTypePosition before w after → String.ofList w ∈ scope.importedNames →
        scope.stem <+: w ∨ IsRest before ∨ HasDoubleBackslash before) ∧
    (IsPlain written.toList → ∀ before w after, written.toList = before ++ (w ++ after) →
      IsTypePosition before w after → String.ofList w ∈ scope.importedNames →
        ¬ HasDoubleBackslash before →
          (words (resolve scope written).text.toList)[(words before).length]? =
            some (if IsRest before then w else scope.localName w)) := by
  constructor
  · intro before w after htext hat hm
    by_contra hleft
    simp only [not_or] at hleft
    obtain ⟨hstem, hrest, hdouble⟩ := hleft
    have hoccurs := occurrences_at hat.toIsWordAt
    rw [← htext, hopen.text_resolve, occurrences_renameAll className names, List.getElem?_map,
      Option.map_eq_some_iff] at hoccurs
    obtain ⟨o, -, ho⟩ := hoccurs
    exact not_isUsed_of_renamed hat.toIsWordAt hm hstem ho ((hat.isUsed_iff hdouble).mpr hrest)
  · intro plain before w after hw hat hm hdouble
    have hoccurs := occurrences_at hat.toIsWordAt
    rw [← hw] at hoccurs
    obtain ⟨o', ho', hbecomes⟩ :=
      getElem?_of_forall₂ (becomes_resolve plain hopen className names) hoccurs
    rw [words, List.getElem?_map, ho', Option.map_some]
    congr 1
    by_cases hrest : IsRest before
    · rw [if_pos hrest]
      exact hbecomes.eq_of_shelters hat.toIsWordAt (Scope.shelters_segment hrest.getLast?_eq)
    · rw [if_neg hrest]
      exact hbecomes.used ((uses_at hat.toIsWordAt).mpr ((hat.isUsed_iff hdouble).mpr hrest)) hm

end References

/-! ## Rest elements -/

/-- Of an item and a rest element, what becomes of each. -/
theorem resolve_leavesRest_tuple :
    let out := words (resolve (itemScope "MyList") "[Item, ...Item[]]").text.toList
    out[0]? = some "IMyListItem".toList ∧ out[1]? = some "Item".toList := by
  intro out
  have hopen : IsOpen "[Item, ...Item[]]" := ⟨⟨'[', by decide, by decide⟩, by decide +kernel⟩
  have hclass : ∀ c ∈ "MyList".toList, isIdentifierChar c = true :=
    List.all_eq_true.mp (by decide +kernel)
  have hrenamed := (@resolve_leavesRest (itemScope "MyList") "[Item, ...Item[]]" hopen hclass
    fun name hm => isWord_itemScope hm).2 (isPlain_of_all (by decide))
  constructor
  · exact hrenamed "[".toList "Item".toList ", ...Item[]]".toList rfl (by decide +kernel)
      (by decide +kernel) (by decide)
  · exact hrenamed "[Item, ...".toList "Item".toList "[]]".toList rfl (by decide +kernel)
      (by decide +kernel) (by decide)

/-- The element type of a rest element keeps the name that is not in scope. -/
theorem not_renamesAll_item : ¬ (itemScope "MyList").RenamesAll
    (resolve (itemScope "MyList") "[string, ...Item[]]").text.toList := by
  intro h
  have htext : (resolve (itemScope "MyList") "[string, ...Item[]]").text.toList =
      "[string, ...".toList ++ ("Item".toList ++ "[]]".toList) := by decide +kernel
  have hstem := h _ _ _ htext (by decide +kernel) (by decide +kernel)
  revert hstem
  decide

end ElementWrappers.TypeExpr
