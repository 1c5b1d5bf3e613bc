import Mathlib
import ElementWrappers.Proofs.WordSpots

/-!
# Places of words

The spot of a word read off the text: each field of `Before` is a fact about the
characters before the word (`place_run`, `lead_run`, `braced_run`, `literal_run`), and
the word is the one after the words among them: `occurrences_at`.
-/

namespace ElementWrappers.TypeExpr

/-- The nearest character before a place that is not blank. -/
def nearest (before : List Char) : Option Char := (Text.trimEnd before).getLast?

/-- The literal that is open behind a text. -/
def literalAfter (before : List Char) : Option Literal := before.foldl Literal.step none

/-- `w` is a whole word between `before` and `after`. -/
structure IsWordAt (before w after : List Char) : Prop where
  word : IsWord w
  begins : ∀ c, before.getLast? = some c → isIdentifierChar c = false
  ends : wordMayEnd after = true

theorem isWordAt_iff {before w after : List Char} : IsWordAt before w after ↔
    (w ≠ [] ∧ w.all isIdentifierChar = true) ∧
      before.getLast?.all (fun c => !isIdentifierChar c) = true ∧ wordMayEnd after = true := by
  rw [List.all_eq_true, Option.all_eq_true]
  simp only [Bool.not_eq_true']
  constructor
  · exact fun h => ⟨⟨h.word.ne_nil, h.word.chars⟩, h.begins, h.ends⟩
  · exact fun h => ⟨⟨h.1.1, h.1.2⟩, h.2.1, h.2.2⟩

instance (before w after : List Char) : Decidable (IsWordAt before w after) :=
  decidable_of_iff _ isWordAt_iff.symm

/-- What a nearest character says about the word behind it. -/
def Lead.of : Option Char → Lead
  | none => .operand
  | some c => if c = ':' then .colon else if leads.contains c then .operand else .other

namespace Lead

variable {o : Option Char}

theorem of_eq_colon : of o = .colon ↔ o = some ':' := by
  cases o with
  | none => simp [of]
  | some c =>
    by_cases hc : c = ':'
    · simp [of, hc]
    · by_cases hm : c ∈ leads <;> simp [of, hc, hm]

theorem of_eq_operand : of o = .operand ↔ ∀ c, o = some c → c ∈ leads := by
  have hcolon : ':' ∉ leads := by decide
  cases o with
  | none => simp [of]
  | some c =>
    by_cases hc : c = ':'
    · simp [of, hc, hcolon]
    · by_cases hm : c ∈ leads <;> simp [of, hc, hm]

end Lead

section Run

variable {before : List Char}

theorem nearest_append (before : List Char) (c : Char) :
    nearest (before ++ [c]) = if Text.isBlank c then nearest before else some c := by
  rw [nearest, Text.trimEnd, List.reverse_append, List.reverse_singleton, List.singleton_append,
    Text.trimStart, List.dropWhile_cons]
  split
  · rfl
  · rw [List.reverse_cons, List.getLast?_concat]

theorem Before.isQuoted_run (before : List Char) : (({} : Before).run before).IsQuoted :=
  Before.isFresh_start.quoted.run before

theorem run_concat (before : List Char) (c : Char) :
    ({} : Before).run (before ++ [c]) = (({} : Before).run before).step c :=
  Before.run_append before [c]

theorem place_run (before : List Char) : (({} : Before).run before).place =
    Place.of before.reverse (before.foldl Quotes.step {}) := by
  induction before using List.reverseRecOn with
  | nil => rfl
  | append_singleton before c ih =>
    have hquoted := (Before.isQuoted_run before).place
    have hstep : ((({} : Before).run before).step c).place =
        (({} : Before).run before).place.step c := by
      by_cases hc : isIdentifierChar c = true
      · rw [Before.step_part hc, Place.step_word _ hquoted hc]
        rfl
      · rw [Before.step_other (Bool.eq_false_of_not_eq_true hc)]
    rw [run_concat, hstep, ih, Place.step_of, List.reverse_append, List.foldl_append]
    rfl

theorem lead_run (before : List Char) :
    (({} : Before).run before).lead = Lead.of (nearest before) := by
  induction before using List.reverseRecOn with
  | nil => rfl
  | append_singleton before c ih =>
    rw [run_concat, nearest_append]
    by_cases hc : isIdentifierChar c = true
    · have hcolon := ne_of_isIdentifierChar hc (show ':' ∈ breaks by decide)
      have hlead : leads.contains c = false := by
        refine Bool.eq_false_iff.mpr fun h => ?_
        have hpart := (Before.isNeutral_of_mem_leads (List.contains_iff_mem.mp h)).part
        rw [hc] at hpart
        cases hpart
      rw [Before.step_part hc, isBlank_of_isIdentifierChar hc, if_neg Bool.false_ne_true, Lead.of,
        if_neg hcolon, hlead]
      rfl
    · rw [Before.step_other (Bool.eq_false_of_not_eq_true hc)]
      show (({} : Before).run before).lead.step c = _
      rw [Lead.step, ih]
      split <;> rfl

theorem braced_run (before : List Char) :
    (({} : Before).run before).braced = true ↔ '\x7b' ∈ before := by
  induction before using List.reverseRecOn with
  | nil => exact iff_of_false Bool.false_ne_true List.not_mem_nil
  | append_singleton before c ih =>
    rw [run_concat, List.mem_append, List.mem_singleton, ← ih]
    by_cases hc : isIdentifierChar c = true
    · have hbrace := (ne_of_isIdentifierChar hc (show '\x7b' ∈ breaks by decide)).symm
      rw [Before.step_part hc]
      exact (or_iff_left hbrace).symm
    · rw [Before.step_other (Bool.eq_false_of_not_eq_true hc), Bool.or_eq_true, beq_iff_eq]
      exact or_congr Iff.rfl eq_comm

theorem literal_run (before : List Char) :
    (({} : Before).run before).literal = literalAfter before := by
  induction before using List.reverseRecOn with
  | nil => rfl
  | append_singleton before c ih =>
    have hstep : ((({} : Before).run before).step c).literal =
        Literal.step (({} : Before).run before).literal c := by
      by_cases hc : isIdentifierChar c = true
      · rw [Before.step_part hc]
        cases hl : (({} : Before).run before).literal with
        | none => simp [Before.afterWord, hl, Literal.step, isQuote_of_isIdentifierChar hc]
        | some l =>
          have hq : c ≠ l.quote := by
            rintro rfl
            have hquote := (Before.isQuoted_run before).literal l hl
            rw [isQuote_of_isIdentifierChar hc] at hquote
            cases hquote
          have hslash := ne_of_isIdentifierChar hc (show '\\' ∈ breaks by decide)
          simp [Before.afterWord, hl, Literal.step, hq, hslash]
      · rw [Before.step_other (Bool.eq_false_of_not_eq_true hc)]
    rw [run_concat, hstep, ih, literalAfter, literalAfter, List.foldl_append]
    rfl

theorem inWord_run (h : ∀ c, before.getLast? = some c → isIdentifierChar c = false) :
    (({} : Before).run before).inWord = false := by
  rcases List.eq_nil_or_concat before with rfl | ⟨x, c, rfl⟩
  · rfl
  · rw [List.concat_eq_append] at h ⊢
    rw [run_concat, Before.step_other (h c List.getLast?_concat)]

end Run

/-! ## Words -/

section Words

variable {before w after : List Char}

/-- What follows a text changes none of its words. -/
theorem map_word_occurrences (b : Before) (rest rest' text : List Char) :
    (occurrences b rest text).map Occurrence.word =
      (occurrences b rest' text).map Occurrence.word := by
  induction text generalizing b with
  | nil => rfl
  | cons c text ih =>
    rw [occurrences, occurrences, List.map_append, List.map_append, ih]
    split <;> rfl

theorem length_words (text : List Char) : (words text).length = (occurrences {} [] text).length :=
  List.length_map _

/-- The spot of a word. -/
def Occurrence.at (before w after : List Char) : Occurrence :=
  ⟨w, ({} : Before).run before, startsLikeKeyEnd after, endsOperand after⟩

/-- A word of a text is the one after those before it. -/
theorem occurrences_at (h : IsWordAt before w after) :
    (occurrences {} [] (before ++ (w ++ after)))[(words before).length]? =
      some (.at before w after) := by
  have hlength : (words before).length = (occurrences {} (w ++ after ++ []) before).length := by
    rw [words, map_word_occurrences {} [] (w ++ after ++ []), List.length_map]
  have hsplit : ∀ c, before.getLast? = some c → isIdentifierChar c = true →
      wordMayEnd (w ++ after) = true := by
    intro c hc hpart
    rw [h.begins c hc] at hpart
    cases hpart
  rw [occurrences_append hsplit, occurrences_word (inWord_run h.begins) h.word h.ends, hlength,
    List.getElem?_append_right (Nat.le_refl _), Nat.sub_self, List.append_nil]
  rfl

end Words

end ElementWrappers.TypeExpr
