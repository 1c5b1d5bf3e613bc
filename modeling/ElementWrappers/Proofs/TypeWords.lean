import ElementWrappers.Proofs.Reading

/-!
# Words of printed types

Renaming the words of a printed type renames its leading names and nothing else:
`Ty.renames_print`. The reader is `mapWords`.
-/

namespace ElementWrappers.TypeExpr

/-- Whether a type may end before these characters. -/
structure EndsType (after : List Char) : Prop where
  word : wordMayEnd after = true
  key : startsLikeKeyEnd after = false

theorem endsType_nil : EndsType [] := ⟨rfl, rfl⟩

section Separators

variable {s : List Char}

theorem startsLikeKeyEnd_separator (h : separates s = true) (after : List Char) :
    startsLikeKeyEnd (s ++ after) = false := by
  have hmem : ∀ c ∈ s, c ∈ dividers := fun c hc => mem_dividers h hc
  simp only [separates, Bool.and_eq_true] at h
  have hany := h.2
  clear h
  induction s with
  | nil => cases hany
  | cons c rest ih =>
    obtain ⟨-, -, -, hcolon, hquestion, -⟩ := of_mem_dividers (hmem c List.mem_cons_self)
    cases hb : Text.isBlank c with
    | true =>
      rw [List.cons_append, startsLikeKeyEnd_blank hb]
      refine ih (fun d hd => hmem d (List.mem_cons_of_mem _ hd)) ?_
      simpa [hb] using hany
    | false =>
      rw [List.cons_append, startsLikeKeyEnd_cons hb]
      simp [hcolon, hquestion]

theorem endsType_separator (h : separates s = true) (after : List Char) : EndsType (s ++ after) := by
  refine ⟨?_, startsLikeKeyEnd_separator h after⟩
  obtain ⟨c, rest, rfl, hc⟩ := separates_cons h
  exact wordMayEnd_cons.mpr (not_isIdentifierChar_of_mem_breaks (of_mem_dividers hc).1)

/-- What is no word is copied. -/
theorem mapWords_breaks {f : List Char → List Char} (h : ∀ c ∈ s, c ∈ breaks) (p : Place)
    (after : List Char) : mapWords f p (s ++ after) = s ++ mapWords f (s.foldl Place.step p) after := by
  induction s generalizing p with
  | nil => rfl
  | cons c s ih =>
    rw [List.cons_append, mapWords_char (not_isIdentifierChar_of_mem_breaks (h c List.mem_cons_self)),
      ih fun d hd => h d (List.mem_cons_of_mem _ hd)]
    rfl

theorem opened_foldl (h : ∀ c ∈ s, isQuote c = false) {p : Place} (hp : p.opened = none) :
    (s.foldl Place.step p).opened = none := by
  induction s generalizing p with
  | nil => exact hp
  | cons c s ih =>
    refine ih (fun d hd => h d (List.mem_cons_of_mem _ hd)) ?_
    simp [Place.step, hp, h c List.mem_cons_self]

theorem begins_step {c : Char} (hc : c ∈ breaks) (hdot : c ≠ '.') (p : Place) :
    (p.step c).begins = true := by
  simp [Place.step, not_isIdentifierChar_of_mem_breaks hc, hdot]

theorem begins_foldl (h : separates s = true) (p : Place) :
    (s.foldl Place.step p).begins = true := by
  rcases List.eq_nil_or_concat s with rfl | ⟨u, c, rfl⟩
  · cases h
  · obtain ⟨hb, -, -, -, -, hdot⟩ := of_mem_dividers (mem_dividers h (c := c) (by simp))
    rw [List.concat_eq_append, List.foldl_append]
    exact begins_step hb hdot _

theorem listed_foldl (h : s ∈ listing) (p : Place) : (s.foldl Place.step p).listed = true := by
  simp only [listing, List.mem_cons, List.not_mem_nil, or_false] at h
  rcases h with rfl | rfl <;> rfl

end Separators

/-- Renaming words. -/
def wordReader (f : List Char → List Char) : Reader where
  State := Place
  run := mapWords f
  Begins l p := p.begins = true ∧ p.opened = none ∧ (l = true → p.listed = true)
  Ends p := p.opened = none
  Closes := EndsType
  ends_of_begins h := h.2.1
  closes_separator := endsType_separator
  run_separator {s l p} hs hl hp := by
    have hmem := fun c (hc : c ∈ s) => of_mem_dividers (mem_dividers hs hc)
    exact ⟨s.foldl Place.step p, ⟨begins_foldl hs p, opened_foldl (fun c hc => (hmem c hc).2.1) hp,
      fun h => listed_foldl (hl h) p⟩, mapWords_breaks (fun c hc => (hmem c hc).1) p⟩

section Words

variable {f : List Char → List Char} {l : Bool} {x y : List Char}

theorem turns_wordReader : (wordReader f).Turns l x y ↔ ∀ (p : Place) (after : List Char),
    (p.begins = true ∧ p.opened = none ∧ (l = true → p.listed = true)) → EndsType after →
      ∃ q : Place, q.opened = none ∧ mapWords f p (x ++ after) = y ++ mapWords f q after := Iff.rfl

/-- A text that is read from its start to its end. -/
theorem mapWords_eq_of_turns (h : (wordReader f).Turns false x y) : mapWords f {} x = y := by
  obtain ⟨q, -, he⟩ := turns_wordReader.mp h {} [] ⟨rfl, rfl, fun hf => by cases hf⟩ endsType_nil
  rwa [List.append_nil, mapWords_nil, List.append_nil] at he

/-- The names after dots stay. -/
theorem mapWords_dotted (tail : List Name) {p : Place} (ho : p.opened = none) {after : List Char}
    (ha : wordMayEnd after = true) : ∃ q : Place, q.opened = none ∧
      mapWords f p (dotted tail ++ after) = dotted tail ++ mapWords f q after := by
  induction tail generalizing p with
  | nil => exact ⟨p, ho, rfl⟩
  | cons x rest ih =>
    have hbreak : isIdentifierChar '.' = false := not_isIdentifierChar_of_mem_breaks (by decide)
    have hend : wordMayEnd (dotted rest ++ after) = true := by
      cases rest with
      | nil => exact ha
      | cons y rest => exact wordMayEnd_cons.mpr hbreak
    have hopen : ((p.step '.').afterWord).opened = none := by
      simp [Place.afterWord, Place.step, ho, isQuote]
    have huse : (p.step '.').uses (dotted rest ++ after) = false := by
      simp [Place.uses, Place.step]
    obtain ⟨q, hq, he⟩ := ih hopen
    refine ⟨q, hq, ?_⟩
    show mapWords f p ('.' :: x.chars ++ dotted rest ++ after) = _
    rw [List.append_assoc, List.cons_append, mapWords_char hbreak, mapWords_word x.isWord hend, huse,
      if_neg Bool.false_ne_true, he]
    simp [dotted]

theorem turns_path (x : Name) (tail : List Name) :
    (wordReader f).Turns l (x.chars ++ dotted tail) (f x.chars ++ dotted tail) := by
  rw [turns_wordReader]
  rintro p after ⟨hb, ho, -⟩ ha
  have hend : EndsType (dotted tail ++ after) := by
    cases tail with
    | nil => exact ha
    | cons y rest =>
      refine ⟨wordMayEnd_cons.mpr (not_isIdentifierChar_of_mem_breaks (by decide)), ?_⟩
      exact startsLikeKeyEnd_cons (by decide) _
  have huse : p.uses (dotted tail ++ after) = true := by simp [Place.uses, hb, ho, hend.key]
  obtain ⟨q, hq, he⟩ := mapWords_dotted (f := f) (p := p.afterWord) tail ho ha.word
  refine ⟨q, hq, ?_⟩
  rw [List.append_assoc, mapWords_word x.isWord hend.word, huse, if_pos rfl, he, List.append_assoc]

theorem turns_literal (label : Label) : (wordReader f).Turns l
    ('\'' :: (label.chars ++ ['\''])) ('\'' :: (label.chars ++ ['\''])) := by
  rw [turns_wordReader]
  rintro p after ⟨-, ho, -⟩ -
  have hquote : isIdentifierChar '\'' = false := not_isIdentifierChar_of_mem_breaks (by decide)
  have hopen : (p.step '\'').opened = some '\'' := by simp [Place.step, ho, isQuote]
  have hend : wordMayEnd ('\'' :: after) = true := wordMayEnd_cons.mpr hquote
  rw [List.cons_append, List.append_assoc, List.singleton_append, mapWords_char hquote]
  by_cases hw : label.chars = []
  · refine ⟨(p.step '\'').step '\'', ?_, ?_⟩
    · simp [Place.step, ho, isQuote]
    · rw [hw, List.nil_append, mapWords_char hquote]
      rfl
  · have hword : IsWord label.chars := ⟨hw, List.all_eq_true.mp label.areWordChars⟩
    have huse : (p.step '\'').uses ('\'' :: after) = false := by simp [Place.uses, hopen]
    refine ⟨(p.step '\'').afterWord.step '\'', ?_, ?_⟩
    · simp [Place.afterWord, Place.step, ho, isQuote]
    · rw [mapWords_word hword hend, huse, if_neg Bool.false_ne_true, mapWords_char hquote]
      simp

/-- What follows the name of a key up to its type. -/
def keyEnd (k : Key) : List Char := (if k.optional then ['?'] else []) ++ [':', ' ']

theorem keyEnd_spec (k : Key) : (∀ c ∈ keyEnd k, c ∈ breaks ∧ isQuote c = false) ∧
    (∀ after, wordMayEnd (keyEnd k ++ after) = true ∧ startsLikeKeyEnd (keyEnd k ++ after) = true) ∧
      ∀ p : Place, ((keyEnd k).foldl Place.step p).begins = true := by
  have hbreak : ∀ {c : Char}, c ∈ breaks → ∀ rest, wordMayEnd (c :: rest) = true :=
    fun hc _ => wordMayEnd_cons.mpr (not_isIdentifierChar_of_mem_breaks hc)
  unfold keyEnd
  split
  · exact ⟨by simp [breaks, isQuote], fun after => ⟨hbreak (by decide) _, rfl⟩,
      fun p => begins_step (by decide) (by decide) _⟩
  · exact ⟨by simp [breaks, isQuote], fun after => ⟨hbreak (by decide) _, rfl⟩,
      fun p => begins_step (by decide) (by decide) _⟩

/-- A key stays: as the key of an object, or because `f` keeps its name. -/
theorem turns_member {k : Key} (hk : l = true ∨ f k.name.chars = k.name.chars)
    (hx : (wordReader f).Turns false x y) :
    (wordReader f).Turns l (k.print ++ ([':', ' '] ++ x)) (k.print ++ ([':', ' '] ++ y)) := by
  rw [turns_wordReader] at hx ⊢
  rintro p after ⟨-, ho, hp⟩ ha
  obtain ⟨hmem, hend, hbegins⟩ := keyEnd_spec k
  have hprint : ∀ z, k.print ++ ([':', ' '] ++ z) = k.name.chars ++ (keyEnd k ++ z) := by
    intro z
    simp [Key.print, keyEnd]
  have hname : (if p.uses (keyEnd k ++ (x ++ after)) then f k.name.chars else k.name.chars) =
      k.name.chars := by
    rcases hk with hl | hf
    · have huse : p.uses (keyEnd k ++ (x ++ after)) = false := by
        simp [Place.uses, hp hl, (hend _).2]
      rw [huse, if_neg Bool.false_ne_true]
    · rw [hf, ite_self]
  have hopen : ((keyEnd k).foldl Place.step p.afterWord).opened = none :=
    opened_foldl (fun c hc => (hmem c hc).2) ho
  obtain ⟨q, hq, he⟩ := hx _ after ⟨hbegins p.afterWord, hopen, fun h => by cases h⟩ ha
  refine ⟨q, hq, ?_⟩
  rw [hprint, hprint, List.append_assoc, List.append_assoc,
    mapWords_word k.name.isWord (hend _).1, hname, mapWords_breaks fun c hc => (hmem c hc).1, he]
  simp only [List.append_assoc]

end Words

/-! ## Printed types -/

namespace Ty

variable {f : List Char → List Char} {F : Name → Name}

/-- Renaming the words of a printed type renames its leading names. -/
theorem turns_print (hf : ∀ x : Name, f x.chars = (F x).chars) (t : Ty)
    (hk : ∀ x ∈ t.parameterNames, f x.chars = x.chars) :
    (wordReader f).Turns false t.print (t.mapNames F).print := by
  induction t using Ty.induct with
  | path first tail =>
    rw [mapNames, print, print, ← hf]
    exact turns_path first tail
  | generic first tail arguments ih =>
    have hargs : (wordReader f).Turns false (commas (arguments.map print))
        (commas (arguments.map fun t => (t.mapNames F).print)) :=
      .commas fun t ht => ih t ht fun x hx => hk x (mem_parameterNamesAll.mpr ⟨t, ht, hx⟩)
    have hopen : separates ['<'] = true := by decide
    have hclose : separates ['>'] = true := by decide
    have h := (turns_path (f := f) (l := false) first tail).between hopen (fun h => by cases h)
      (hargs.before hclose)
    rw [hf] at h
    simpa [print, mapNames, enclosed, Function.comp_def] using h
  | array item ih =>
    have hitem := ih fun x hx => hk x hx
    rw [mapNames, print, print, needsParens_mapNames]
    refine Reader.Turns.before ?_ (by decide)
    split
    · exact .parens hitem
    · exact hitem
  | tuple items ih =>
    have hb : ('[', ']') ∈ brackets := by decide
    rw [mapNames, print, print, printAll_eq_map, printAll_eq_map, mapAll_eq_map, List.map_map]
    exact .enclosed hb fun t ht => ih t ht fun x hx => hk x (mem_parameterNamesAll.mpr ⟨t, ht, hx⟩)
  | group inner ih => exact .parens (ih fun x hx => hk x hx)
  | join left mark right ihl ihr =>
    have hl := ihl fun x hx => hk x (List.mem_append_left _ hx)
    have hr := ihr fun x hx => hk x (List.mem_append_right _ hx)
    have hmark : separates [' ', mark.char, ' '] = true := by cases mark <;> decide
    exact hl.between hmark (fun h => by cases h) hr
  | literal label => exact turns_literal label
  | object members ih =>
    rw [mapNames, print, print, printMembers_eq_map, printMembers_eq_map, mapMembers_eq_map,
      List.map_map]
    exact .braced fun m hm => turns_member (.inl rfl)
      (ih m hm fun x hx => hk x (mem_parameterNamesMembers.mpr ⟨m, hm, hx⟩))
  | function parameters result ihp ihr =>
    have hb : ('(', ')') ∈ brackets := by decide
    have hp : (wordReader f).Turns false (enclosed '(' ')' (parameters.map printMember))
        (enclosed '(' ')' (parameters.map (printMember ∘ fun m => (m.1, m.2.mapNames F)))) := by
      refine .enclosed hb fun m hm => turns_member (.inr (hk _ ?_)) (ihp m hm fun x hx => hk x ?_)
      · exact List.mem_append_left _ (List.mem_map_of_mem hm)
      · exact List.mem_append_right _ (List.mem_append_left _
          (mem_parameterNamesMembers.mpr ⟨m, hm, hx⟩))
    have hr := ihr fun x hx => hk x (List.mem_append_right _ (List.mem_append_right _ hx))
    have harrow : separates [' ', '=', '>', ' '] = true := by decide
    rw [mapNames, print, print, printMembers_eq_map, printMembers_eq_map, mapMembers_eq_map,
      List.map_map]
    exact hp.between harrow (fun h => by cases h) hr

end Ty

end ElementWrappers.TypeExpr
