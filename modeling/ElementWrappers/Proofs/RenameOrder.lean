import Mathlib
import ElementWrappers.Proofs.EntryLaws
import ElementWrappers.Proofs.KeptWords

/-!
# Orders of renaming

Names are renamed one after the other, each in the text that the ones before it left. Since
a local name is its own local name, and a renamed word leaves the spots of the others alone,
this is one pass over the first text: `renameAll_eq_renameTogether`. So the order in which
the references are listed does not matter: `resolve_inAnyOrder`.
-/

namespace ElementWrappers.TypeExpr

/-- Renames the uses of all names in one pass, each word judged by what stands around it in
the text as it is. `before` holds the characters passed, the nearest first. -/
def renameTogether (scope : Scope) (names : List String) (before : List Char) (quotes : Quotes)
    (text : List Char) : List Char :=
  match text with
  | [] => []
  | c :: rest =>
    if isIdentifierChar c then
      let word := c :: rest.takeWhile isIdentifierChar
      let after := rest.dropWhile isIdentifierChar
      have := Text.length_dropWhile_le isIdentifierChar rest
      (if quotes.opened.isNone && isUse before after && names.contains (String.ofList word) then
        scope.localName word
      else word) ++
        renameTogether scope names (word.reverse ++ before) (word.foldl Quotes.step quotes) after
    else c :: renameTogether scope names (c :: before) (quotes.step c) rest
termination_by text.length

/-- Which of the words of a text are uses. -/
def wordUses (text : List Char) : List Bool := (occurrences {} [] text).map Occurrence.uses

/-! ## One pass -/

section Together

variable {scope : Scope} {names done left : List String} {before w after : List Char}
  {quotes : Quotes}

theorem renameTogether_word (hw : IsWord w) (ha : wordMayEnd after = true) :
    renameTogether scope names before quotes (w ++ after) =
      (if quotes.opened.isNone && isUse before after then renameWord scope names w else w) ++
        renameTogether scope names (w.reverse ++ before) (w.foldl Quotes.step quotes) after := by
  obtain ⟨c, u, rfl⟩ := List.exists_cons_of_ne_nil hw.ne_nil
  have hu : ∀ d ∈ u, isIdentifierChar d = true := fun d hd => hw.chars d (List.mem_cons_of_mem _ hd)
  rw [List.cons_append, renameTogether, if_pos (hw.chars c List.mem_cons_self)]
  simp only
  rw [(takeWhile_word hu ha).1, (takeWhile_word hu ha).2, renameWord]
  congr 1
  by_cases h : (quotes.opened.isNone && isUse before after) = true
  · simp [h]
  · simp [h]

theorem renameTogether_eq_mapWords (hq : (Place.of before quotes).IsQuoted) (text : List Char) :
    renameTogether scope names before quotes text =
      mapWords (renameWord scope names) (Place.of before quotes) text := by
  induction text using words_induction generalizing before quotes with
  | nil => rw [renameTogether, mapWords_nil]
  | char c rest hc ih =>
    have hstep := Place.step_of before quotes c
    have hq' : (Place.of (c :: before) (quotes.step c)).IsQuoted := hstep ▸ hq.step c
    rw [renameTogether, if_neg (by rw [hc]; exact Bool.false_ne_true), mapWords_char hc, ih hq',
      hstep]
  | word w after hw ha ih =>
    have hplace := Place.of_word hw hq
    have hq' : (Place.of (w.reverse ++ before) (w.foldl Quotes.step quotes)).IsQuoted :=
      hplace ▸ hq.afterWord
    rw [renameTogether_word hw ha, mapWords_word hw ha, ih hq', hplace, Place.uses_of ha]

/-- Renaming names one after the other is renaming them in one pass. -/
theorem renameAll_eq_renameTogether
    (hclass : ∀ c ∈ scope.className.toList, isIdentifierChar c = true)
    (hnames : ∀ name ∈ names, IsWord name.toList) (text : List Char) :
    renameAll scope names text = renameTogether scope names [] {} text := by
  have hstart : (Place.of [] {}).IsQuoted := Place.isQuoted_start
  rw [renameAll_eq_mapWords hclass hnames, renameTogether_eq_mapWords hstart]
  rfl

/-! ## Words between two renamings -/

theorem Occurrence.uses_renamed (f : List Char → List Char) (o : Occurrence) :
    (o.renamed f).uses = o.uses := by
  rw [Occurrence.renamed]
  split <;> rfl

/-- Only a name becomes another word, and then it is a local name. -/
theorem stem_prefix_of_ne {o : Occurrence}
    (h : (o.renamed (renameWord scope names)).word ≠ o.word) :
    scope.stem <+: (o.renamed (renameWord scope names)).word := by
  by_cases hu : o.uses = true
  · have hword : (o.renamed (renameWord scope names)).word = renameWord scope names o.word := by
      rw [Occurrence.renamed, if_pos hu]
    rw [hword, renameWord] at h ⊢
    split at h
    · rename_i hm
      rw [if_pos hm]
      exact Scope.stem_prefix_localName o.word
    · exact absurd rfl h
  · rw [Occurrence.renamed, if_neg hu] at h
    exact absurd rfl h

/-- No renaming makes a word a use, or keeps one from being a use. -/
theorem wordUses_renameAll (hclass : ∀ c ∈ scope.className.toList, isIdentifierChar c = true)
    (hnames : ∀ name ∈ names, IsWord name.toList) (text : List Char) :
    wordUses (renameAll scope names text) = wordUses text := by
  rw [wordUses, occurrences_renameAll hclass hnames, List.map_map]
  exact List.map_congr_left fun o _ => o.uses_renamed _

theorem renameAll_append (text : List Char) :
    renameAll scope (done ++ left) text = renameAll scope left (renameAll scope done text) :=
  List.foldl_append

/-- A word that was replaced is not replaced once more. -/
theorem words_renameAll_of_ne (hclass : ∀ c ∈ scope.className.toList, isIdentifierChar c = true)
    (hdone : ∀ name ∈ done, IsWord name.toList) (hleft : ∀ name ∈ left, IsWord name.toList)
    {text u : List Char} {k : Nat} (hw : (words text)[k]? = some w)
    (hu : (words (renameAll scope done text))[k]? = some u) (hne : u ≠ w) :
    (words (renameAll scope (done ++ left) text))[k]? = some u := by
  rw [words, List.getElem?_map, Option.map_eq_some_iff] at hw
  obtain ⟨o, ho, rfl⟩ := hw
  have hfirst : (occurrences {} [] (renameAll scope done text))[k]? =
      some (o.renamed (renameWord scope done)) := by
    rw [occurrences_renameAll hclass hdone, List.getElem?_map, ho]
    rfl
  rw [words, List.getElem?_map, hfirst, Option.map_some, Option.some.injEq] at hu
  subst hu
  rw [renameAll_append, words, occurrences_renameAll hclass hleft, List.getElem?_map,
    List.getElem?_map, hfirst, Option.map_some, Option.map_some, Option.some.injEq,
    Occurrence.renamed]
  split
  · exact renameWord_of_prefix (stem_prefix_of_ne hne) left
  · rfl

end Together

/-! ## References in another order -/

section Orders

variable {scope scope' : Scope}

theorem Shape.renamed_congr (hq : scope.qualifyName = scope'.qualifyName)
    {f g : List Char → List Char} {s : Shape} (h : ∀ part ∈ s.inner, f part = g part)
    (text : List Char) : s.renamed scope text f = s.renamed scope' text g := by
  cases s with
  | fixed => rfl
  | members pieces =>
    have hmap : pieces.map (fun p => (f p.text, p.after)) =
        pieces.map fun p => (g p.text, p.after) :=
      List.map_congr_left fun p hp => by rw [h p.text (List.mem_map_of_mem hp)]
    rw [renamed, renamed, hmap]
  | object => rw [renamed, renamed, hq]
  | array item => rw [renamed, renamed, h item List.mem_cons_self]
  | group inner => rw [renamed, renamed, h inner List.mem_cons_self]
  | tuple items => exact congrArg (enclosed '[' ']') (List.map_congr_left h)
  | generic base arguments =>
    rw [renamed, renamed, h base List.mem_cons_self,
      List.map_congr_left fun item hi => h item (List.mem_cons_of_mem _ hi)]
  | path first rest => rw [renamed, renamed, hq]
  | name => rw [renamed, renamed, hq]

theorem qualify_congr (hq : scope.qualifyName = scope'.qualifyName) (text : List Char) :
    qualify scope text = qualify scope' text := by
  induction hn : text.length using Nat.strongRecOn generalizing text with
  | ind n ih =>
    subst hn
    rw [qualify_eq, qualify_eq]
    refine Shape.renamed_congr hq (fun part hp => ih part.length ?_ part rfl) _
    exact Nat.lt_of_lt_of_le (length_of_mem_inner hp) (Text.length_trim_le text)

/-- Two scopes of one class that list the same references. -/
structure Scope.Relists (scope scope' : Scope) : Prop where
  className : scope'.className = scope.className
  references : scope.references.entries.Perm scope'.references.entries

namespace Scope.Relists

variable (h : scope.Relists scope')
include h

theorem localName_eq : scope.localName = scope'.localName := by
  funext name
  rw [localName, localName, stem, stem, h.className]

theorem qualifyName_eq : scope.qualifyName = scope'.qualifyName := by
  funext name
  have hget := Entries.get?_eq_of_perm (k := String.ofList name) scope.references.distinct
    h.references
  rw [qualifyName, qualifyName, isGlobal, isGlobal, Table.get?, Table.get?, hget, h.localName_eq]

theorem mem_importedNames (name : String) :
    name ∈ scope.importedNames ↔ name ∈ scope'.importedNames :=
  ((h.references.filter _).map Prod.fst).mem_iff

theorem renameWord_eq :
    renameWord scope scope.importedNames = renameWord scope' scope'.importedNames := by
  funext w
  rw [renameWord, renameWord, h.localName_eq]
  exact if_congr (h.mem_importedNames _) rfl rfl

/-- Another order of the references gives the same text. -/
theorem text_resolve (hclass : ∀ c ∈ scope.className.toList, isIdentifierChar c = true)
    (hnames : ∀ name ∈ scope.importedNames, IsWord name.toList) (written : String) :
    (resolve scope' written).text = (resolve scope written).text := by
  have hclass' : ∀ c ∈ scope'.className.toList, isIdentifierChar c = true := h.className ▸ hclass
  have hnames' : ∀ name ∈ scope'.importedNames, IsWord name.toList :=
    fun name hm => hnames name ((h.mem_importedNames name).mpr hm)
  simp only [resolve]
  split
  · rfl
  split
  · rfl
  show String.ofList _ = String.ofList _
  rw [renameAll_eq_mapWords hclass hnames, renameAll_eq_mapWords hclass' hnames', h.renameWord_eq,
    qualify_congr h.qualifyName_eq]

end Scope.Relists

end Orders

/-- The order in which the references are listed does not show in the type. Renaming one
name after the other is one pass over the text as it was, since a renaming leaves each word
the use that it was, or none, and what it replaced stays. -/
theorem resolve_inAnyOrder {scope : Scope}
    (className : ∀ c ∈ scope.className.toList, isIdentifierChar c = true)
    (names : ∀ name ∈ scope.importedNames, IsWord name.toList) :
    (∀ references : References, scope.references.entries.Perm references.entries →
      ∀ written, (resolve ⟨scope.className, references⟩ written).text =
        (resolve scope written).text) ∧
    (∀ text, renameAll scope scope.importedNames text =
      renameTogether scope scope.importedNames [] {} text) ∧
    ∀ done left, (∀ name ∈ done ++ left, name ∈ scope.importedNames) → ∀ text,
      wordUses (renameAll scope done text) = wordUses text ∧
      ∀ (k : Nat) (w u : List Char), (words text)[k]? = some w →
        (words (renameAll scope done text))[k]? = some u → u ≠ w →
          (words (renameAll scope (done ++ left) text))[k]? = some u := by
  refine ⟨fun references hp => Scope.Relists.text_resolve ⟨rfl, hp⟩ className names,
    renameAll_eq_renameTogether className names, fun done left hm text => ?_⟩
  have hdone : ∀ name ∈ done, IsWord name.toList :=
    fun name h => names name (hm name (List.mem_append_left _ h))
  have hleft : ∀ name ∈ left, IsWord name.toList :=
    fun name h => names name (hm name (List.mem_append_right _ h))
  exact ⟨wordUses_renameAll className hdone text,
    fun k w u => words_renameAll_of_ne className hdone hleft⟩

/-- Type expressions that use a type, another that is called like its local name, and a
third that begins like the first. -/
def aliasScope : Scope :=
  ⟨"X", [("Item", ⟨.sameModule, none, none⟩), ("IXItem", ⟨.imported, none, none⟩),
    ("Items", ⟨.sameModule, none, none⟩)], by decide⟩

/-- Names that are like the local names of others, in two orders. -/
theorem resolve_inAnyOrder_aliases :
    (resolve ⟨"X", ⟨aliasScope.references.entries.reverse, by decide⟩⟩
        "(a: Items) => IXItem | Item").text =
      (resolve aliasScope "(a: Items) => IXItem | Item").text ∧
    renameAll aliasScope aliasScope.importedNames "(Item: Items) => IXItem | Item".toList =
      renameTogether aliasScope aliasScope.importedNames [] {}
        "(Item: Items) => IXItem | Item".toList ∧
    wordUses (renameAll aliasScope ["Item"] "[Item, IXItem]".toList) =
      wordUses "[Item, IXItem]".toList ∧
    (words (renameAll aliasScope ["Item", "IXItem"] "[Item, IXItem]".toList))[0]? =
      some "IXItem".toList := by
  have hclass : ∀ c ∈ aliasScope.className.toList, isIdentifierChar c = true :=
    List.all_eq_true.mp (by decide +kernel)
  have hnames : ∀ name ∈ aliasScope.importedNames, IsWord name.toList := by
    intro name hm
    have hall : aliasScope.importedNames.all (fun name => !name.toList.isEmpty &&
        name.toList.all isIdentifierChar) = true := by decide +kernel
    have hname := List.all_eq_true.mp hall name hm
    rw [Bool.and_eq_true, Bool.not_eq_true', List.isEmpty_eq_false_iff, List.all_eq_true] at hname
    exact ⟨hname.1, hname.2⟩
  obtain ⟨horder, htogether, hsteps⟩ := resolve_inAnyOrder hclass hnames
  obtain ⟨huses, hstays⟩ := hsteps ["Item"] ["IXItem"] (by decide +kernel) "[Item, IXItem]".toList
  refine ⟨horder _ (List.reverse_perm _).symm _, htogether _, huses, ?_⟩
  exact hstays 0 "Item".toList "IXItem".toList (by decide +kernel) (by decide +kernel) (by decide)

end ElementWrappers.TypeExpr
