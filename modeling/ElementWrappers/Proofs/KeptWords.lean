import Mathlib
import ElementWrappers.Proofs.QualifiedWords
import ElementWrappers.Proofs.WordPlaces

/-!
# Words that a resolved type keeps

Resolving neither adds a word to a type expression nor drops one, and what it may do
to a word is a matter of the spot. A word that is no reference stays unless it stands
behind a colon with a brace before it, or is a type of its own: `resolve_keeps`. The
segments behind a dot and the keys of objects are always kept, and so is an operator
before its operand, but for one behind a colon.
-/

namespace ElementWrappers.TypeExpr

/-! ## Words and what becomes of them -/

/-- A word and what resolving makes of it, at the same spot. -/
structure Scope.Becomes (scope : Scope) (o o' : Occurrence) : Prop where
  before : o'.before = o.before
  keyEnd : o'.keyEnd = o.keyEnd
  word : o'.word = o.word ∨ o'.word = scope.localName o.word ∧
    (o.IsExposed ∧ ¬ scope.Keeps o.word ∨
      o.uses = true ∧ String.ofList o.word ∈ scope.importedNames)
  used : o.uses = true → String.ofList o.word ∈ scope.importedNames →
    o'.word = scope.localName o.word

/-- An expression that is neither blank nor a built-in type. -/
structure IsOpen (written : String) : Prop where
  nonblank : ∃ c ∈ written.toList, Text.isBlank c = false
  free : isBuiltIn (String.ofList (normalize written.toList)) = false

section Becomes

variable {scope : Scope} {o o₁ : Occurrence} {written : String}

/-- What is qualified is not renamed once more. -/
theorem Scope.Requalifies.becomes (h : scope.Requalifies o o₁) :
    scope.Becomes o (o₁.renamed (renameWord scope scope.importedNames)) := by
  have huses : o₁.uses = o.uses := by
    rw [Occurrence.uses, Occurrence.uses, h.before, h.keyEnd]
  have hspot : (o₁.renamed (renameWord scope scope.importedNames)).before = o₁.before ∧
      (o₁.renamed (renameWord scope scope.importedNames)).keyEnd = o₁.keyEnd := by
    rw [Occurrence.renamed]
    split <;> exact ⟨rfl, rfl⟩
  have hword : (o₁.renamed (renameWord scope scope.importedNames)).word =
      if o.uses = true then renameWord scope scope.importedNames o₁.word else o₁.word := by
    rw [Occurrence.renamed, huses]
    split <;> rfl
  have hlocal : o₁.word = scope.localName o.word →
      (o₁.renamed (renameWord scope scope.importedNames)).word = scope.localName o.word := by
    intro he
    rw [hword, he, renameWord_of_prefix (Scope.stem_prefix_localName o.word), ite_self]
  refine ⟨hspot.1.trans h.before, hspot.2.trans h.keyEnd, ?_, ?_⟩
  · rcases h.word with he | ⟨hexposed, hfree, he⟩
    · rw [hword, he]
      split
      · rename_i hu
        rw [renameWord]
        split
        · rename_i hm
          exact .inr ⟨rfl, .inr ⟨hu, hm⟩⟩
        · exact .inl rfl
      · exact .inl rfl
    · exact .inr ⟨hlocal he, .inl ⟨hexposed, hfree⟩⟩
  · intro hu hm
    rcases h.word with he | ⟨-, -, he⟩
    · rw [hword, he, if_pos hu, renameWord, if_pos hm]
    · exact hlocal he

theorem normalize_ne_nil (nonblank : ∃ c ∈ written.toList, Text.isBlank c = false) :
    (normalize written.toList).isEmpty = false := by
  rw [List.isEmpty_eq_false_iff]
  intro he
  obtain ⟨c, hm, hb⟩ := nonblank
  have ht := tokens_normalize written.toList
  rw [he, tokens_nil, eq_comm, tokens_eq_nil_iff] at ht
  rw [ht c hm] at hb
  cases hb

theorem IsOpen.text_resolve (h : IsOpen written) : (resolve scope written).text.toList =
    renameAll scope scope.importedNames (qualify scope (normalize written.toList)) := by
  rw [resolve.eq_def]
  simp only [normalize_ne_nil h.nonblank, h.free, Bool.false_eq_true, ↓reduceIte,
    String.toList_ofList]

/-- Renaming names renames the words that are uses, and changes no spot. -/
theorem occurrences_renameAll (hclass : ∀ c ∈ scope.className.toList, isIdentifierChar c = true)
    {names : List String} (hnames : ∀ name ∈ names, IsWord name.toList) (text : List Char) :
    occurrences {} [] (renameAll scope names text) =
      (occurrences {} [] text).map (Occurrence.renamed (renameWord scope names)) := by
  rw [renameAll_eq_mapWords hclass hnames]
  exact occurrences_mapWords (keepsWords_renameWord hclass _) text nofun

/-- Word by word, what resolving makes of an open expression. -/
theorem becomes_resolve (plain : IsPlain written.toList) (hopen : IsOpen written)
    (hclass : ∀ c ∈ scope.className.toList, isIdentifierChar c = true)
    (hnames : ∀ name ∈ scope.importedNames, IsWord name.toList) :
    List.Forall₂ scope.Becomes (occurrences {} [] written.toList)
      (occurrences {} [] (resolve scope written).text.toList) := by
  have hplain : IsPlain (normalize written.toList) := plain.of_tokens (tokens_normalize _)
  have hqualified := (qualifies_qualify hclass hplain {} [] [] Before.isFresh_start rfl rfl).1
  rw [occurrences_normalize] at hqualified
  rw [hopen.text_resolve, occurrences_renameAll hclass hnames, List.forall₂_map_right_iff]
  exact hqualified.imp fun _ _ h => h.becomes

end Becomes

/-! ## Sheltered words -/

/-- A type may stand here: behind a colon with a brace somewhere before it, or between
a place where a type may begin and one where a type may end. -/
def IsExposed (before after : List Char) : Prop :=
  nearest before = some ':' ∧ '\x7b' ∈ before ∨
    (∀ c, nearest before = some c → c ∈ leads) ∧ endsOperand after = true

/-- The spot of a word that is replaced if it is called like a reference: not right
behind a dot, not the key of an object, and not in a literal. -/
structure IsUsed (before after : List Char) : Prop where
  dot : before.getLast? ≠ some '.'
  key : isKey before.reverse after = false
  literal : (before.foldl Quotes.step {}).opened = none

/-- Neither qualifying nor the renaming of references takes the word for a type. -/
structure Scope.Shelters (scope : Scope) (before w after : List Char) : Prop where
  unexposed : scope.Keeps w ∨ ¬ IsExposed before after
  unused : String.ofList w ∉ scope.importedNames ∨ ¬ IsUsed before after

section Spots

variable {scope : Scope} {before w after : List Char}

theorem nearest_eq (before : List Char) :
    nearest before = (Text.trimStart before.reverse).head? := by
  rw [nearest, Text.trimEnd, List.getLast?_reverse]

theorem isExposed_at : (Occurrence.at before w after).IsExposed ↔ IsExposed before after := by
  rw [Occurrence.IsExposed, IsExposed, Occurrence.at, lead_run, braced_run, Lead.of_eq_colon,
    Lead.of_eq_operand]

theorem uses_at (h : IsWordAt before w after) :
    (Occurrence.at before w after).uses = true ↔ IsUsed before after := by
  have huses : (Occurrence.at before w after).uses =
      ((before.foldl Quotes.step {}).opened.isNone && isUse before.reverse after) := by
    rw [← Place.uses_of h.ends, ← place_run]
    rfl
  have hbegins : wordMayBegin before.reverse = true ↔ before.getLast? ≠ some '.' := by
    rcases List.eq_nil_or_concat before with rfl | ⟨x, c, rfl⟩
    · simp [wordMayBegin]
    · have hc := h.begins c (by rw [List.concat_eq_append, List.getLast?_concat])
      rw [List.concat_eq_append, List.reverse_append, List.getLast?_concat]
      simp [wordMayBegin, hc]
  rw [huses, isUse, h.ends, Bool.and_true, Bool.and_eq_true, Bool.and_eq_true, hbegins,
    Option.isNone_iff_eq_none, Bool.not_eq_true']
  constructor
  · rintro ⟨ho, hd, hk⟩
    exact ⟨hd, hk, ho⟩
  · rintro ⟨hd, hk, ho⟩
    exact ⟨ho, hd, hk⟩

namespace Scope

/-- The segments of a qualified name behind its first are sheltered. -/
theorem shelters_segment (h : before.getLast? = some '.') : scope.Shelters before w after := by
  have hnearest : nearest before = some '.' := by
    obtain ⟨x, rfl⟩ := List.getLast?_eq_some_iff.mp h
    rw [nearest_append, if_neg (by decide)]
  refine ⟨.inr ?_, .inr fun hu => hu.dot h⟩
  rintro (⟨hcolon, -⟩ | ⟨hlead, -⟩)
  · rw [hnearest] at hcolon
    cases hcolon
  · exact absurd (hlead '.' hnearest) (by decide)

/-- The keys of object types are sheltered. -/
theorem shelters_key (h : isKey before.reverse after = true) : scope.Shelters before w after := by
  rw [isKey, Bool.and_eq_true] at h
  obtain ⟨hopens, hends⟩ := h
  refine ⟨.inr ?_, .inr fun hu => ?_⟩
  · rintro (⟨hcolon, -⟩ | ⟨-, he⟩)
    · rw [nearest_eq] at hcolon
      obtain ⟨x, hx⟩ := List.head?_eq_some_iff.mp hcolon
      rw [hx] at hopens
      cases hopens
    · rw [startsLikeKeyEnd_of_endsOperand he] at hends
      cases hends
  · have hkey := hu.key
    rw [isKey, hopens, hends] at hkey
    cases hkey

/-- A word that is no reference is sheltered where no type ends, unless it stands behind
a colon: such is an operator before its operand. -/
theorem shelters_operator (hfree : String.ofList w ∉ scope.importedNames)
    (hcolon : nearest before ≠ some ':') (hends : endsOperand after = false) :
    scope.Shelters before w after := by
  refine ⟨.inr ?_, .inl hfree⟩
  rintro (⟨hc, -⟩ | ⟨-, he⟩)
  · exact hcolon hc
  · rw [hends] at he
    cases he

end Scope

theorem Scope.Becomes.eq_of_shelters {o' : Occurrence}
    (h : scope.Becomes (.at before w after) o') (hat : IsWordAt before w after)
    (hs : scope.Shelters before w after) : o'.word = w := by
  rcases h.word with he | ⟨-, ⟨hexposed, hkeeps⟩ | ⟨hu, hm⟩⟩
  · exact he
  · exact absurd (isExposed_at.mp hexposed) (hs.unexposed.resolve_left hkeeps)
  · exact absurd ((uses_at hat).mp hu) (hs.unused.resolve_left (not_not_intro hm))

end Spots

/-! ## Resolving -/

/-- Type expressions that use one type of the component's own module. -/
def itemScope (className : String) : Scope :=
  ⟨className, [("Item", ⟨.sameModule, none, none⟩)], by decide⟩

theorem isPlain_of_all {text : List Char}
    (h : text.all (fun c => decide (c.toNat < 128)) = true) : IsPlain text :=
  isPlain_of_isAscii fun c hc => of_decide_eq_true (List.all_eq_true.mp h c hc)

theorem isWord_itemScope {className name : String}
    (hm : name ∈ (itemScope className).importedNames) : IsWord name.toList := by
  obtain rfl : name = "Item" := List.mem_singleton.mp hm
  exact ⟨by decide, List.all_eq_true.mp (by decide +kernel)⟩

section Resolve

variable {scope : Scope} {written : String}

theorem getElem?_of_forall₂ {α β : Type} {R : α → β → Prop} {l : List α} {l' : List β}
    (h : List.Forall₂ R l l') {k : Nat} {a : α} (ha : l[k]? = some a) :
    ∃ a', l'[k]? = some a' ∧ R a a' := by
  induction h generalizing k with
  | nil => cases ha
  | @cons _ b _ _ hr _ ih =>
    cases k with
    | zero =>
      cases ha
      exact ⟨b, rfl, hr⟩
    | succ k => exact ih ha

/-- Any expression has as many words as the type that resolving makes of it, and
each of them stays or becomes its local name. Sheltered words stay. -/
theorem resolve_keeps (plain : IsPlain written.toList)
    (nonblank : ∃ c ∈ written.toList, Text.isBlank c = false)
    (className : ∀ c ∈ scope.className.toList, isIdentifierChar c = true)
    (names : ∀ name ∈ scope.importedNames, IsWord name.toList) :
    (words (resolve scope written).text.toList).length = (words written.toList).length ∧
      ∀ before w after, written.toList = before ++ (w ++ after) → IsWordAt before w after →
        ∃ u, (words (resolve scope written).text.toList)[(words before).length]? = some u ∧
          (u = w ∨ u = scope.localName w) ∧ (scope.Shelters before w after → u = w) := by
  by_cases hfree : isBuiltIn (String.ofList (normalize written.toList)) = true
  · -- a built-in type is only normalized
    have htext : (resolve scope written).text.toList = normalize written.toList := by
      rw [resolve.eq_def]
      simp only [normalize_ne_nil nonblank, hfree, Bool.false_eq_true, ↓reduceIte,
        String.toList_ofList]
    have hwords : words (resolve scope written).text.toList = words written.toList := by
      rw [words, words, htext, occurrences_normalize]
    rw [hwords]
    refine ⟨rfl, fun before w after hw hat => ⟨w, ?_, .inl rfl, fun _ => rfl⟩⟩
    rw [words, List.getElem?_map, hw, occurrences_at hat]
    rfl
  · have hopen : IsOpen written := ⟨nonblank, Bool.eq_false_of_not_eq_true hfree⟩
    have hbecomes := becomes_resolve plain hopen className names
    refine ⟨by rw [length_words, length_words, hbecomes.length_eq], ?_⟩
    intro before w after hw hat
    have hoccurs := occurrences_at hat
    rw [← hw] at hoccurs
    obtain ⟨o', ho', hword⟩ := getElem?_of_forall₂ hbecomes hoccurs
    refine ⟨o'.word, by rw [words, List.getElem?_map, ho']; rfl, hword.word.imp_right And.left, ?_⟩
    exact hword.eq_of_shelters hat

end Resolve

/-- An operator, a key and a segment that stay. -/
theorem resolve_keeps_keyof :
    let out := words (resolve (itemScope "X") "keyof \x7b Item: Item.Kind \x7d").text.toList
    out.length = 4 ∧ out[0]? = some "keyof".toList ∧ out[1]? = some "Item".toList ∧
      out[3]? = some "Kind".toList := by
  intro out
  have hclass : ∀ c ∈ "X".toList, isIdentifierChar c = true :=
    List.all_eq_true.mp (by decide +kernel)
  obtain ⟨hlength, hkeeps⟩ := @resolve_keeps (itemScope "X") "keyof \x7b Item: Item.Kind \x7d"
    (isPlain_of_all (by decide)) ⟨'k', by decide, by decide⟩ hclass
    fun name hm => isWord_itemScope hm
  have hkept : ∀ {before w after : List Char},
      "keyof \x7b Item: Item.Kind \x7d".toList = before ++ (w ++ after) →
        IsWordAt before w after → (itemScope "X").Shelters before w after →
          out[(words before).length]? = some w := by
    intro before w after he hat hs
    obtain ⟨u, hu, -, hsame⟩ := hkeeps before w after he hat
    rw [hu, hsame hs]
  have hkeyof : (itemScope "X").Shelters [] "keyof".toList " \x7b Item: Item.Kind \x7d".toList :=
    Scope.shelters_operator (by decide +kernel) (by decide) (by decide)
  have hkey : (itemScope "X").Shelters "keyof \x7b ".toList "Item".toList
      ": Item.Kind \x7d".toList := Scope.shelters_key (by decide)
  have hsegment : (itemScope "X").Shelters "keyof \x7b Item: Item.".toList "Kind".toList
      " \x7d".toList := Scope.shelters_segment (by decide)
  refine ⟨hlength.trans (by decide +kernel), ?_, ?_, ?_⟩
  · exact hkept rfl (by decide +kernel) hkeyof
  · exact hkept rfl (by decide +kernel) hkey
  · exact hkept rfl (by decide +kernel) hsegment

/-! ## Operators behind a colon -/

/-- The words that are operators of type expressions. -/
def operators : List String :=
  ["keyof", "typeof", "readonly", "new", "unique", "infer", "extends", "is", "this"]

/-- Resolving leaves the operators of an expression alone. -/
def Scope.KeepsOperators (scope : Scope) (written : String) : Prop :=
  ∀ (k : Nat) (w : List Char), (words written.toList)[k]? = some w → String.ofList w ∈ operators →
    String.ofList w ∉ scope.importedNames →
      (words (resolve scope written).text.toList)[k]? = some w

/-- Behind a colon an operator is taken for the type of the member. -/
theorem not_keepsOperators_keyof :
    ¬ (itemScope "X").KeepsOperators "\x7b key: keyof Item \x7d" := by
  intro h
  have hkeyof := h 1 "keyof".toList (by decide +kernel) (by decide +kernel) (by decide +kernel)
  have hlocal : (words (resolve (itemScope "X") "\x7b key: keyof Item \x7d").text.toList)[1]? =
      some "IXkeyof".toList := by decide +kernel
  rw [hlocal] at hkeyof
  revert hkeyof
  decide

end ElementWrappers.TypeExpr
