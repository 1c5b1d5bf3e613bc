import ElementWrappers.Proofs.EventTypes
import ElementWrappers.Proofs.ShapeParts
import ElementWrappers.Proofs.Tokens

/-!
# Tokens of resolved types

The resolver works on any text, balanced or not. Whatever it makes of it, no
token is lost, moved or added: each stays as it is, or is a word that gets the
stem of the local names in front: `resolve_tokens`.
-/

namespace ElementWrappers.TypeExpr

/-! ## Stems -/

namespace Scope

variable {scope : Scope} {w : List Char}

/-- A word that means the same next to the wrapper: a reference that needs no
import, or a built-in name that is none that does. -/
def Keeps (scope : Scope) (w : List Char) : Prop :=
  (∃ r, scope.references.get? (String.ofList w) = some r ∧ r.needsImport = false) ∨
    isBuiltIn (String.ofList w) = true ∧ isImported scope.references (String.ofList w) = false

/-- A token without the stem, if it begins with one. -/
def unstemmed (scope : Scope) (token : List Char) : List Char :=
  if scope.stem.isPrefixOf token then token.drop scope.stem.length else token

/-- A token and what it may become. -/
inductive Stems (scope : Scope) : List Char → List Char → Prop
  | same (token : List Char) : Stems scope token token
  | stemmed {w : List Char} (word : IsWord w) (bare : ¬ scope.stem <+: w)
      (free : ¬ scope.Keeps w) : Stems scope w (scope.stem ++ w)

theorem Stems.trans {t u v : List Char} (h : scope.Stems t u) (h' : scope.Stems u v) :
    scope.Stems t v := by
  cases h with
  | same => exact h'
  | stemmed word bare free =>
    cases h' with
    | same => exact .stemmed word bare free
    | stemmed _ bare' _ => exact absurd (List.prefix_append _ _) bare'

/-- Without stems nothing has changed. -/
theorem Stems.unstemmed {t u : List Char} (h : scope.Stems t u) :
    scope.unstemmed t = scope.unstemmed u := by
  cases h with
  | same => rfl
  | stemmed _ bare _ =>
    rw [Scope.unstemmed, Scope.unstemmed, if_neg fun hp => bare (List.isPrefixOf_iff_prefix.mp hp),
      if_pos (List.isPrefixOf_iff_prefix.mpr (List.prefix_append _ _)), List.drop_left]

theorem stems_localName (hw : IsWord w) (h : ¬ scope.Keeps w) : scope.Stems w (scope.localName w) := by
  unfold localName
  split
  · exact .same w
  · rename_i hp
    exact .stemmed hw (fun hs => hp (List.isPrefixOf_iff_prefix.mpr hs)) h

theorem qualifyName_eq (w : List Char) :
    scope.qualifyName w = w ∨ ¬ scope.Keeps w ∧ scope.qualifyName w = scope.localName w := by
  unfold qualifyName
  split
  · exact .inl rfl
  · rename_i hg
    refine .inr ⟨fun hk => hg ?_, rfl⟩
    rw [isGlobal, Bool.or_eq_true]
    rcases hk with ⟨r, hr, hn⟩ | ⟨hb, -⟩
    · rw [hr]
      simp [hn]
    · exact .inl hb

theorem stems_qualifyName (hw : IsWord w) : scope.Stems w (scope.qualifyName w) := by
  rcases scope.qualifyName_eq w with he | ⟨hfree, he⟩
  · rw [he]
    exact .same w
  · rw [he]
    exact stems_localName hw hfree

theorem stems_renameWord (hw : IsWord w) :
    scope.Stems w (renameWord scope scope.importedNames w) := by
  unfold renameWord
  split
  · rename_i hm
    have hi := mem_importedNames.mp hm
    refine stems_localName hw fun hk => ?_
    rcases hk with ⟨r, hr, hn⟩ | ⟨-, hn⟩
    · rw [isImported, hr, Option.any_some, hn] at hi
      cases hi
    · rw [hi] at hn
      cases hn
  · exact .same w

/-! ## Texts -/

/-- The tokens of `y` are those of `x`, some of them behind a stem. -/
def Retells (scope : Scope) (x y : List Char) : Prop :=
  List.Forall₂ scope.Stems (tokens x) (tokens y)

namespace Retells

variable {x x' y y' z : List Char} {c : Char}

theorem of_tokens (h : tokens x = tokens y) : scope.Retells x y := by
  rw [Retells, h]
  exact List.forall₂_same.mpr fun t _ => .same t

theorem refl (x : List Char) : scope.Retells x x := of_tokens rfl

theorem trans (h : scope.Retells x y) (h' : scope.Retells y z) : scope.Retells x z := by
  unfold Retells at *
  generalize tokens x = ts at h
  generalize tokens y = us at h h'
  generalize tokens z = vs at h'
  induction h generalizing vs with
  | nil => exact h'
  | cons ht _ ih =>
    cases h' with
    | cons hu hrest => exact .cons (ht.trans hu) (ih _ hrest)

/-- How much white space there is does not count. -/
theorem congr (h : scope.Retells x y) (he : tokens y' = tokens y) : scope.Retells x y' := by
  rw [Retells, he]
  exact h

theorem cut (hx : scope.Retells x x') (hc : isIdentifierChar c = false) (hy : scope.Retells y y') :
    scope.Retells (x ++ c :: y) (x' ++ c :: y') := by
  rw [Retells, tokens_cut hc, tokens_cut hc]
  exact List.rel_append hx (List.rel_append (List.forall₂_same.mpr fun t _ => .same t) hy)

/-- A text between two characters that belong to no word. -/
theorem enclosed (hx : scope.Retells x x') {o e : Char} (ho : isIdentifierChar o = false)
    (he : isIdentifierChar e = false) :
    scope.Retells (o :: (x ++ [e])) (o :: (x' ++ [e])) :=
  (refl []).cut ho (hx.cut he (refl []))

theorem word (hw : IsWord w) (hw' : IsWord y) (h : scope.Stems w y)
    (hx : scope.Retells x x') (he : wordMayEnd x = true) (he' : wordMayEnd x' = true) :
    scope.Retells (w ++ x) (y ++ x') := by
  rw [Retells, tokens_word hw he, tokens_word hw' he']
  exact .cons h hx

end Retells

end Scope

/-! ## Lists -/

/-- Texts so related may be put together around a separator, on the right with any
blanks around it. -/
def Joins (R : List Char → List Char → Prop) (separators : List Char) : Prop :=
  ∀ {x x' y y' gap gap' : List Char} {c : Char}, c ∈ separators →
    (∀ d ∈ gap, Text.isBlank d = true) → (∀ d ∈ gap', Text.isBlank d = true) →
      R x x' → R y y' → R (x ++ c :: y) (x' ++ (gap ++ c :: (gap' ++ y')))

section Lists

variable {R : List Char → List Char → Prop} {separators : List Char} {f : List Char → List Char}
  {pieces : List Piece}

/-- The members of a union, each with what has become of it. -/
theorem Parted.joinMembers (hp : Parted separators pieces) (hR : Joins R separators)
    (hf : ∀ p ∈ pieces, R p.text (f p.text)) (started : Bool) :
    R (unsplit pieces)
      (TypeExpr.joinMembers started (pieces.map fun p => (f p.text, p.after))) := by
  induction hp generalizing started with
  | last text => simpa [unsplit, TypeExpr.joinMembers] using hf _ List.mem_cons_self
  | @part text c rest hc _ ih =>
    have hrest := ih (fun p hp => hf p (List.mem_cons_of_mem _ hp)) true
    have hpad : ∀ d ∈ (if started || !(f text).isEmpty then [' '] else []),
        Text.isBlank d = true := by
      intro d hd
      split at hd
      · exact Text.isBlank_singleton d hd
      · cases hd
    have he : unsplit (⟨text, some c⟩ :: rest) = text ++ c :: unsplit rest := by simp [unsplit]
    rw [he, List.map_cons, TypeExpr.joinMembers, List.append_assoc]
    exact hR hc hpad Text.isBlank_singleton (hf _ List.mem_cons_self) hrest

/-- The items of a list, each with what has become of it. -/
theorem Parted.commas (hp : Parted [','] pieces) (hR : Joins R [','])
    (hf : ∀ p ∈ pieces, R p.text (f p.text)) :
    R (unsplit pieces) (TypeExpr.commas ((pieces.map Piece.text).map f)) := by
  induction hp with
  | last text => simpa [unsplit, TypeExpr.commas] using hf _ List.mem_cons_self
  | @part text c rest hc h ih =>
    obtain rfl := List.mem_singleton.mp hc
    have hrest := ih fun p hp => hf p (List.mem_cons_of_mem _ hp)
    have he : unsplit (⟨text, some ','⟩ :: rest) = text ++ ',' :: unsplit rest := by simp [unsplit]
    have hne : ∃ q qs, rest = q :: qs := by cases h <;> exact ⟨_, _, rfl⟩
    obtain ⟨q, qs, rfl⟩ := hne
    have hlist : TypeExpr.commas (((⟨text, some ','⟩ :: q :: qs).map Piece.text).map f) =
        f text ++ ([] ++ ',' :: ([' '] ++ TypeExpr.commas (((q :: qs).map Piece.text).map f))) := by
      simp [TypeExpr.commas, List.intercalate_cons_cons]
    rw [he, hlist]
    exact hR hc Text.isBlank_nil Text.isBlank_singleton (hf _ List.mem_cons_self) hrest

theorem Joins.members (hR : Joins R ['|', '&']) {text : List Char}
    (hf : ∀ p ∈ split ['|', '&'] text, R p.text (f p.text)) :
    R text (joinMembers false ((split ['|', '&'] text).map fun p => (f p.text, p.after))) := by
  have h := (parted_splitFrom ['|', '&'] {} text).joinMembers hR hf false
  rwa [unsplit_splitFrom] at h

theorem Joins.listItems (hR : Joins R [',']) {text : List Char}
    (hf : ∀ item ∈ TypeExpr.listItems text, R item (f item)) :
    R text (TypeExpr.commas ((TypeExpr.listItems text).map f)) := by
  have h : R (unsplit (splitFrom [','] {} text)) (TypeExpr.commas
      ((TypeExpr.listItems text).map f)) :=
    (parted_splitFrom _ _ _).commas hR fun p hp => hf p.text (List.mem_map_of_mem hp)
  rwa [unsplit_splitFrom] at h

end Lists

theorem Scope.Retells.joins {scope : Scope} {separators : List Char} (hs : separators ⊆ breaks) :
    Joins scope.Retells separators := by
  intro x x' y y' gap gap' c hc hg hg' hx hy
  rw [← List.append_assoc]
  refine Retells.cut ?_ (not_isIdentifierChar_of_mem_breaks (hs hc))
    (hy.congr (tokens_blanks hg' _))
  refine hx.congr ?_
  rw [tokens_append (wordMayEnd_blanks hg), tokens_eq_nil_iff.mpr hg, List.append_nil]

/-! ## Qualifying -/

section Members

variable {scope : Scope} {g : List Char → List Char} {x word : List Char}

/-- Names after colons begin where they began, so words end where they ended. -/
theorem wordMayEnd_renameMembers (q : Quotes) (x : List Char) :
    wordMayEnd (renameMembers g q x) = wordMayEnd x := by
  rw [renameMembers.eq_def]
  split
  · rfl
  · split
    · rename_i c rest hc
      subst hc
      split
      · rfl
      · split <;> rfl
    · rfl

/-- A name at the start of a plain text is a word. -/
theorem IsPlain.of_leadingName? {c : Char} {blanks name after : List Char} (hx : IsPlain (c :: x))
    (h : leadingName? x = some (blanks, name, after)) :
    x = blanks ++ (name ++ after) ∧ (∀ d ∈ blanks, Text.isBlank d = true) ∧ IsWord name ∧
      wordMayEnd after = true ∧ IsPlain after := by
  obtain ⟨rfl, hblanks, hname, hstop⟩ := TypeExpr.of_leadingName? h
  have hrest : IsPlain (name ++ after) := hx.mono fun d hd => by simp [List.mem_append.mp hd]
  have hafter : IsPlain after := hrest.mono (List.subset_append_right _ _)
  refine ⟨rfl, hblanks, ?_, ?_, hafter⟩
  · exact (hrest.mono (List.subset_append_left _ _)).isWord_of_isName hname
  · cases after with
    | nil => rfl
    | cons d after =>
      rw [wordMayEnd_cons, ← hafter d List.mem_cons_self]
      exact hstop d rfl

theorem stems_renameMembers (hg : ∀ w, IsWord w → IsWord (g w) ∧ scope.Stems w (g w))
    (hx : IsPlain x) (q : Quotes) :
    List.Forall₂ scope.Stems (tokensFrom word x) (tokensFrom word (renameMembers g q x)) := by
  have hcolon : isIdentifierChar ':' = false := not_isIdentifierChar_of_mem_breaks (by decide)
  have hsame : ∀ ts : List (List Char), List.Forall₂ scope.Stems ts ts :=
    fun ts => List.forall₂_same.mpr fun t _ => .same t
  induction q, x using renameMembers.induct generalizing word with
  | case1 q => rw [renameMembers.eq_def]; exact hsame _
  | case2 q rest hn ih =>
    rw [renameMembers_noName hn, tokensFrom_other hcolon, tokensFrom_other hcolon]
    have hrest : List.Forall₂ scope.Stems (tokens rest) (tokens (renameMembers g (q.step ':') rest)) :=
      ih (hx.mono (List.subset_cons_self _ _))
    exact List.rel_append (hsame _) (List.rel_append (hsame _) hrest)
  | case3 q rest blanks name after hn hl ih =>
    obtain ⟨rfl, hb, hword, hend, hafter⟩ := hx.of_leadingName? hn
    have hend' : wordMayEnd (renameMembers g (q.step ':') after) = true := by
      rw [wordMayEnd_renameMembers, hend]
    have hrest : List.Forall₂ scope.Stems (tokens after)
        (tokens (renameMembers g (q.step ':') after)) := ih hafter
    rw [renameMembers_name hn, tokensFrom_other hcolon, tokens_blanks hb, tokens_word hword hend]
    split
    · rw [List.append_assoc, List.cons_append, tokensFrom_other hcolon, tokens_blanks hb,
        tokens_word hword hend']
      exact List.rel_append (hsame _) (List.rel_append (hsame _) (.cons (.same name) hrest))
    · rw [List.cons_append, List.cons_append, tokensFrom_other hcolon,
        tokens_char (isIdentifierChar_of_isBlank (by decide)), tokens_word (hg name hword).1 hend']
      exact List.rel_append (hsame _) (List.rel_append (hsame _) (.cons (hg name hword).2 hrest))
  | case4 q c rest hc ih =>
    have hrest := hx.mono (List.subset_cons_self c rest)
    rw [renameMembers_char hc]
    by_cases hi : isIdentifierChar c = true
    · rw [tokensFrom_part hi, tokensFrom_part hi]
      exact ih hrest
    · have hi := Bool.eq_false_of_not_eq_true hi
      rw [tokensFrom_other hi, tokensFrom_other hi]
      refine List.rel_append (hsame _) (List.rel_append (hsame _) ?_)
      exact ih hrest

end Members

section Resolve

variable {scope : Scope} {x : List Char}

theorem Scope.isWord_qualifyName (hc : ∀ c ∈ scope.className.toList, isIdentifierChar c = true)
    {w : List Char} (hw : IsWord w) : IsWord (scope.qualifyName w) := by
  unfold qualifyName
  split
  · exact hw
  · exact isWord_localName hc hw

/-- Whatever form a text has, its renamed parts are put together with the tokens
that stood between them. -/
theorem Shape.Describes.retells (hc : ∀ c ∈ scope.className.toList, isIdentifierChar c = true)
    (hx : IsPlain x) {f : List Char → List Char} {s : Shape} (h : s.Describes x)
    (hf : ∀ part ∈ s.inner, scope.Retells part (f part)) :
    scope.Retells x (s.renamed scope x f) := by
  have hopen : ∀ c ∈ breaks, isIdentifierChar c = false :=
    fun c hc => not_isIdentifierChar_of_mem_breaks hc
  have hname : ∀ w, IsWord w → IsWord (scope.qualifyName w) ∧ scope.Stems w (scope.qualifyName w) :=
    fun w hw => ⟨Scope.isWord_qualifyName hc hw, Scope.stems_qualifyName hw⟩
  have hmarks : Joins scope.Retells ['|', '&'] := Scope.Retells.joins (by simp [breaks])
  have hlists : Joins scope.Retells [','] := Scope.Retells.joins (by simp [breaks])
  cases h with
  | fixed => exact .refl x
  | members =>
    exact hmarks.members fun p hp => hf p.text (List.mem_map_of_mem hp)
  | object => exact stems_renameMembers hname hx {}
  | @array item parts =>
    rw [parts]
    exact (hf item List.mem_cons_self).cut (hopen _ (by decide)) (.refl _)
  | @group inner parts =>
    rw [parts]
    exact (hf inner List.mem_cons_self).enclosed (hopen _ (by decide)) (hopen _ (by decide))
  | tuple parts =>
    rw [parts]
    exact (hlists.listItems hf).enclosed (hopen _ (by decide)) (hopen _ (by decide))
  | @generic base inner parts =>
    rw [parts]
    have harguments : ∀ item ∈ listItems inner, scope.Retells item (f item) :=
      fun item hi => hf item (List.mem_cons_of_mem _ hi)
    exact (hf base List.mem_cons_self).cut (hopen _ (by decide))
      ((hlists.listItems harguments).cut (hopen _ (by decide)) (.refl _))
  | @path first rest isName parts dot =>
    have hword := (hx.mono (by rw [parts]; exact List.subset_append_left _ _)).isWord_of_isName isName
    have hend : wordMayEnd rest = true := by
      cases rest with
      | nil => rfl
      | cons d rest =>
        cases dot
        exact wordMayEnd_cons.mpr (hopen _ (by decide))
    rw [parts]
    exact .word hword (hname first hword).1 (hname first hword).2 (.refl rest) hend hend
  | name isName =>
    have hword := hx.isWord_of_isName isName
    have h := Scope.Retells.word hword (hname x hword).1 (hname x hword).2 (.refl []) rfl rfl
    rwa [List.append_nil, List.append_nil] at h

/-- Qualifying puts stems before words, and does nothing else. -/
theorem retells_qualify (hc : ∀ c ∈ scope.className.toList, isIdentifierChar c = true)
    (hx : IsPlain x) : scope.Retells x (qualify scope x) := by
  induction hn : x.length using Nat.strongRecOn generalizing x with
  | ind n ih =>
    subst hn
    have htrim : IsPlain (Text.trim x) := hx.of_tokens (tokens_trim x)
    have hd := Shape.describes_of (Text.trim x)
    rw [qualify_eq]
    refine (Scope.Retells.of_tokens (tokens_trim x).symm).trans (hd.retells hc htrim ?_)
    intro part hp
    have hl := Nat.lt_of_lt_of_le (length_of_mem_inner hp) (Text.length_trim_le x)
    exact ih _ hl (htrim.mono (hd.subset hp)) rfl

/-! ## Renaming words -/

theorem retells_mapWords {f : List Char → List Char} (hf : KeepsWords f)
    (hs : ∀ w, IsWord w → scope.Stems w (f w)) (p : Place) (text : List Char) :
    scope.Retells text (mapWords f p text) := by
  induction text using words_induction generalizing p with
  | nil => rw [mapWords_nil]; exact .refl []
  | char c rest hc ih =>
    rw [mapWords_char hc]
    exact (Scope.Retells.refl []).cut hc (ih _)
  | word w after hw ha ih =>
    have ha' : wordMayEnd (mapWords f p.afterWord after) = true := by
      rw [wordMayEnd_mapWords hf, ha]
    rw [mapWords_word hw ha]
    split
    · exact .word hw (hf w hw) (hs w hw) (ih _) ha ha'
    · exact .word hw hw (.same w) (ih _) ha ha'

theorem keepsWords_renameWord (hc : ∀ c ∈ scope.className.toList, isIdentifierChar c = true)
    (names : List String) : KeepsWords (renameWord scope names) := by
  intro w hw
  unfold renameWord
  split
  · exact Scope.isWord_localName hc hw
  · exact hw

/-- Resolving any ASCII text that is not blank neither loses, moves nor adds a
token: but for the stem in front of some words the tokens are the same. Words
that keep their meaning next to the wrapper get none. -/
theorem resolve_tokens {written : String} (ascii : ∀ c ∈ written.toList, c.toNat < 128)
    (nonblank : ∃ c ∈ written.toList, Text.isBlank c = false)
    (className : ∀ c ∈ scope.className.toList, isIdentifierChar c = true)
    (names : ∀ name ∈ scope.references.keys, IsWord name.toList) :
    (tokens written.toList).map scope.unstemmed =
        (tokens (resolve scope written).text.toList).map scope.unstemmed ∧
      List.Forall₂ (fun t u => scope.Keeps t → u = t) (tokens written.toList)
        (tokens (resolve scope written).text.toList) := by
  have hplain : IsPlain (normalize written.toList) :=
    (isPlain_of_isAscii ascii).of_tokens (tokens_normalize _)
  have hnormal : scope.Retells written.toList (normalize written.toList) :=
    .of_tokens (tokens_normalize _).symm
  have hne : (normalize written.toList).isEmpty = false := by
    rw [List.isEmpty_eq_false_iff]
    intro he
    obtain ⟨c, hm, hb⟩ := nonblank
    have ht := tokens_normalize written.toList
    rw [he, tokens_nil, eq_comm, tokens_eq_nil_iff] at ht
    rw [ht c hm] at hb
    cases hb
  have hwords : ∀ name ∈ scope.importedNames, IsWord name.toList := by
    intro name hm
    obtain ⟨entry, he, rfl⟩ := List.mem_map.mp hm
    exact names _ (List.mem_map_of_mem (List.mem_of_mem_filter he))
  have hall : scope.Retells written.toList (resolve scope written).text.toList := by
    rw [resolve.eq_def]
    simp only [hne, Bool.false_eq_true, ↓reduceIte]
    split
    · rw [String.toList_ofList]
      exact hnormal
    · rw [String.toList_ofList, renameAll_eq_mapWords className hwords]
      refine hnormal.trans ((retells_qualify className hplain).trans ?_)
      exact retells_mapWords (keepsWords_renameWord className _)
        (fun w hw => Scope.stems_renameWord hw) {} _
  constructor
  · rw [← List.forall₂_eq_eq_eq, List.forall₂_map_left_iff, List.forall₂_map_right_iff]
    exact hall.imp fun t u h => h.unstemmed
  · refine hall.imp fun t u h hk => ?_
    cases h with
    | same => rfl
    | stemmed _ _ free => exact absurd hk free

end Resolve

/-- A union that begins with its mark and leaves a brace open. -/
def unbalanced : String := "| Foo <Bar[] ,'Foo'> & \x7b Foo?: Date,\n k:Foo"

theorem resolve_tokens_unbalanced :
    (resolve ⟨"Bar", sampleReferences false⟩ unbalanced).text =
        "| IBarFoo<IBarBar[], 'Foo'> & \x7b Foo?: Date, k:IBarFoo" ∧
      (tokens unbalanced.toList).map (Scope.unstemmed ⟨"Bar", sampleReferences false⟩) =
        (tokens (resolve ⟨"Bar", sampleReferences false⟩ unbalanced).text.toList).map
          (Scope.unstemmed ⟨"Bar", sampleReferences false⟩) ∧
      List.Forall₂ (fun t u => Scope.Keeps ⟨"Bar", sampleReferences false⟩ t → u = t)
        (tokens unbalanced.toList)
        (tokens (resolve ⟨"Bar", sampleReferences false⟩ unbalanced).text.toList) := by
  have hclass : ∀ c ∈ "Bar".toList, isIdentifierChar c = true := by
    exact List.all_eq_true.mp (by decide +kernel)
  have hnames : ∀ name ∈ (sampleReferences false).keys, IsWord name.toList := by
    intro name hm
    obtain rfl : name = "Foo" := List.mem_singleton.mp hm
    exact Name.foo.isWord
  have hascii : ∀ c ∈ unbalanced.toList, c.toNat < 128 := by
    intro c hc
    exact of_decide_eq_true (List.all_eq_true.mp
      (show unbalanced.toList.all (fun c => decide (c.toNat < 128)) = true by decide) c hc)
  exact ⟨by decide +kernel, resolve_tokens hascii ⟨'|', by decide, by decide⟩ hclass hnames⟩

end ElementWrappers.TypeExpr
