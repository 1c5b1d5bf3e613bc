import ElementWrappers.Proofs.Reading

/-!
# Names after colons

Renaming the members of a printed object type renames the names that stand right
after a colon, at any depth: `Ty.renameMembers_print`. The reader is `renameMembers`.
-/

namespace ElementWrappers.TypeExpr

namespace Ty

mutual

/-- Renames the leading names right after colons; the type itself stands after
one if `colon` is set. -/
def mapColons (g : Name → Name) (colon : Bool) : Ty → Ty
  | path first tail => path (if colon then g first else first) tail
  | generic first tail arguments =>
    generic (if colon then g first else first) tail (mapColonsAll g arguments)
  | array item => array (mapColons g (colon && !item.needsParens) item)
  | tuple items => tuple (mapColonsAll g items)
  | group inner => group (mapColons g false inner)
  | join left mark right => join (mapColons g colon left) mark (mapColons g false right)
  | literal label => literal label
  | object members => object (mapColonsMembers g members)
  | function parameters result => function (mapColonsMembers g parameters) (mapColons g false result)

def mapColonsAll (g : Name → Name) : List Ty → List Ty
  | [] => []
  | t :: rest => mapColons g false t :: mapColonsAll g rest

def mapColonsMembers (g : Name → Name) : List (Key × Ty) → List (Key × Ty)
  | [] => []
  | (k, t) :: rest => (k, mapColons g true t) :: mapColonsMembers g rest

end

section Colons

variable {g F : Name → Name}

@[simp] theorem mapColonsAll_eq_map (ts : List Ty) :
    mapColonsAll g ts = ts.map (mapColons g false) := by
  induction ts with
  | nil => rfl
  | cons t rest ih => rw [mapColonsAll, ih, List.map_cons]

@[simp] theorem mapColonsMembers_eq_map (ms : List (Key × Ty)) :
    mapColonsMembers g ms = ms.map fun m => (m.1, m.2.mapColons g true) := by
  induction ms with
  | nil => rfl
  | cons m rest ih => rw [mapColonsMembers, ih, List.map_cons]

@[simp] theorem needsParens_mapColons (colon : Bool) (t : Ty) :
    (t.mapColons g colon).needsParens = t.needsParens := by
  cases t <;> rfl

/-- What is renamed to something with the same new name does not show later. -/
theorem mapNames_mapColons (t : Ty) (h : ∀ x ∈ t.leadingNames, F (g x) = F x) (colon : Bool) :
    (t.mapColons g colon).mapNames F = t.mapNames F := by
  have hif : ∀ (x : Name), F (g x) = F x → ∀ c : Bool, F (if c then g x else x) = F x := by
    intro x hx c
    cases c
    · rfl
    · exact hx
  induction t using Ty.induct generalizing colon with
  | path first tail => rw [mapColons, mapNames, hif first (h _ (by simp [leadingNames])), mapNames]
  | generic first tail arguments ih =>
    have hargs : ∀ t ∈ arguments, (t.mapColons g false).mapNames F = t.mapNames F :=
      fun t ht => ih t ht (fun x hx => h x (by simpa [leadingNames] using Or.inr ⟨t, ht, hx⟩)) false
    rw [mapColons, mapNames, hif first (h _ (by simp [leadingNames])), mapNames]
    simpa using hargs
  | array item ih => rw [mapColons, mapNames, ih (fun x hx => h x hx), mapNames]
  | tuple items ih =>
    have hitems : ∀ t ∈ items, (t.mapColons g false).mapNames F = t.mapNames F :=
      fun t ht => ih t ht (fun x hx => h x (by simpa [leadingNames] using ⟨t, ht, hx⟩)) false
    rw [mapColons, mapNames, mapNames]
    simpa using hitems
  | group inner ih => rw [mapColons, mapNames, ih (fun x hx => h x hx), mapNames]
  | join left mark right ihl ihr =>
    rw [mapColons, mapNames, ihl (fun x hx => h x (List.mem_append_left _ hx)),
      ihr (fun x hx => h x (List.mem_append_right _ hx)), mapNames]
  | literal label => rfl
  | object members ih =>
    have hms : ∀ m ∈ members, (m.2.mapColons g true).mapNames F = m.2.mapNames F :=
      fun m hm => ih m hm (fun x hx => h x (mem_leadingNamesMembers.mpr ⟨m, hm, hx⟩)) true
    rw [mapColons, mapNames, mapNames]
    simpa using fun k t hm => hms (k, t) hm
  | function parameters result ihp ihr =>
    have hps : ∀ m ∈ parameters, (m.2.mapColons g true).mapNames F = m.2.mapNames F :=
      fun m hm => ihp m hm (fun x hx => h x
        (List.mem_append_left _ (mem_leadingNamesMembers.mpr ⟨m, hm, hx⟩))) true
    rw [mapColons, mapNames, ihr (fun x hx => h x (List.mem_append_right _ hx)), mapNames]
    simpa using fun k t hm => hps (k, t) hm

/-- The parameter names of `t` stay. -/
def KeepsParameters (g : Name → Name) (t : Ty) : Prop :=
  ∀ (colon : Bool) (x : Name), x ∈ (t.mapColons g colon).parameterNames ↔ x ∈ t.parameterNames

theorem mem_parameterNamesAll_mapColons {ts : List Ty} (h : ∀ t ∈ ts, KeepsParameters g t)
    (x : Name) : x ∈ parameterNamesAll (mapColonsAll g ts) ↔ x ∈ parameterNamesAll ts := by
  rw [mapColonsAll_eq_map, mem_parameterNamesAll, mem_parameterNamesAll]
  simp only [List.mem_map, exists_exists_and_eq_and]
  exact exists_congr fun t => and_congr_right fun ht => h t ht false x

theorem mem_parameterNamesMembers_mapColons {ms : List (Key × Ty)}
    (h : ∀ m ∈ ms, KeepsParameters g m.2) (x : Name) :
    x ∈ parameterNamesMembers (mapColonsMembers g ms) ↔ x ∈ parameterNamesMembers ms := by
  rw [mapColonsMembers_eq_map, mem_parameterNamesMembers, mem_parameterNamesMembers]
  simp only [List.mem_map, exists_exists_and_eq_and]
  exact exists_congr fun m => and_congr_right fun hm => h m hm true x

theorem keepsParameters (t : Ty) : KeepsParameters g t := by
  induction t using Ty.induct with
  | path first tail => exact fun _ _ => Iff.rfl
  | generic first tail arguments ih => exact fun _ => mem_parameterNamesAll_mapColons ih
  | array item ih => exact fun _ => ih _
  | tuple items ih => exact fun _ => mem_parameterNamesAll_mapColons ih
  | group inner ih => exact fun _ => ih _
  | join left mark right ihl ihr =>
    intro colon x
    rw [mapColons, parameterNames, parameterNames, List.mem_append, List.mem_append, ihl, ihr]
  | literal label => exact fun _ _ => Iff.rfl
  | object members ih => exact fun _ => mem_parameterNamesMembers_mapColons ih
  | function parameters result ihp ihr =>
    intro colon x
    rw [mapColons, parameterNames, parameterNames, List.mem_append, List.mem_append, List.mem_append,
      List.mem_append, mem_parameterNamesMembers_mapColons ihp, ihr, mapColonsMembers_eq_map,
      List.map_map]
    rfl

end Colons

end Ty

/-! ## Reading members -/

section Members

variable {g : List Char → List Char} {q : Quotes} {s rest : List Char}

theorem renameMembers_char {c : Char} (hc : c ≠ ':') (rest : List Char) :
    renameMembers g q (c :: rest) = c :: renameMembers g (q.step c) rest := by
  rw [renameMembers.eq_def]
  exact if_neg hc

/-- What has no colon is copied. -/
theorem renameMembers_copy (h : ∀ c ∈ s, c ≠ ':') (q : Quotes) (after : List Char) :
    renameMembers g q (s ++ after) = s ++ renameMembers g (s.foldl Quotes.step q) after := by
  induction s generalizing q with
  | nil => rfl
  | cons c s ih =>
    rw [List.cons_append, renameMembers_char (h c List.mem_cons_self),
      ih fun d hd => h d (List.mem_cons_of_mem _ hd)]
    rfl

theorem Quotes.opened_foldl (h : ∀ c ∈ s, isQuote c = false) {q : Quotes} (hq : q.opened = none) :
    (s.foldl Quotes.step q).opened = none := by
  induction s generalizing q with
  | nil => exact hq
  | cons c s ih =>
    refine ih (fun d hd => h d (List.mem_cons_of_mem _ hd)) ?_
    simp [Quotes.step, hq, h c List.mem_cons_self]

/-- A name after a colon is renamed outside literals, and copied inside. -/
theorem renameMembers_name {blanks name after : List Char}
    (h : leadingName? rest = some (blanks, name, after)) :
    renameMembers g q (':' :: rest) =
      (if q.covers ':' then ':' :: blanks ++ name else ':' :: ' ' :: g name) ++
        renameMembers g (q.step ':') after := by
  rw [renameMembers.eq_def]
  simp only [↓reduceIte]
  split
  · rename_i h'
    rw [h] at h'
    cases h'
  · rename_i b n a h'
    rw [h] at h'
    cases h'
    rfl

theorem renameMembers_colon (hq : q.opened = none) {blanks name after : List Char}
    (h : leadingName? rest = some (blanks, name, after)) :
    renameMembers g q (':' :: rest) = ':' :: ' ' :: (g name ++ renameMembers g (q.step ':') after) := by
  have hcovers : q.covers ':' = false := by simp [Quotes.covers, hq, isQuote]
  rw [renameMembers_name h, hcovers]
  rfl

theorem renameMembers_noName (h : leadingName? rest = none) :
    renameMembers g q (':' :: rest) = ':' :: renameMembers g (q.step ':') rest := by
  rw [renameMembers.eq_def]
  simp only [↓reduceIte]
  split
  · rfl
  · rename_i h'
    rw [h] at h'
    cases h'

end Members

/-- Whether a name ends before these characters. -/
def EndsName (after : List Char) : Prop := ∀ c, after.head? = some c → isNamePart c = false

theorem endsName_nil : EndsName [] := fun c h => by cases h

theorem endsName_cons {c : Char} (hc : isNamePart c = false) (rest : List Char) :
    EndsName (c :: rest) := by
  intro d hd
  cases hd
  exact hc

theorem leadingName?_name (x : Name) {after : List Char} (ha : EndsName after) :
    leadingName? (' ' :: (x.chars ++ after)) = some ([' '], x.chars, after) := by
  obtain ⟨c, rest, he, hc, hrest⟩ := x.eq_cons
  have hpart : ∀ d ∈ rest, isNamePart d = true := fun d hd => (of_isAsciiPart (hrest d hd)).2
  have hblank : Text.isBlank c = false :=
    isBlank_of_isIdentifierChar (x.isWord.chars c (by rw [he]; exact List.mem_cons_self))
  have hstop : after.takeWhile isNamePart = [] ∧ after.dropWhile isNamePart = after := by
    cases after with
    | nil => exact ⟨rfl, rfl⟩
    | cons d after =>
      rw [List.takeWhile_cons, List.dropWhile_cons, ha d rfl]
      exact ⟨rfl, rfl⟩
  rw [he, List.cons_append, leadingName?]
  simp only [List.takeWhile_cons_of_pos (show Text.isBlank ' ' = true by decide),
    List.dropWhile_cons_of_pos (show Text.isBlank ' ' = true by decide), List.takeWhile_cons,
    List.dropWhile_cons, hblank, Bool.false_eq_true, ↓reduceIte, hc]
  rw [List.takeWhile_append_of_pos hpart, List.dropWhile_append_of_pos hpart, hstop.1, hstop.2,
    List.append_nil]

theorem leadingName?_other {c : Char} (hc : isNameStart c = false) (hb : Text.isBlank c = false)
    (rest : List Char) : leadingName? (' ' :: c :: rest) = none := by
  rw [leadingName?]
  simp only [List.dropWhile_cons_of_pos (show Text.isBlank ' ' = true by decide),
    List.dropWhile_cons, hb, Bool.false_eq_true, ↓reduceIte, hc]

/-- Renaming the members of an object. -/
def memberReader (g : List Char → List Char) : Reader where
  State := Quotes
  run := renameMembers g
  Begins _ q := q.opened = none
  Ends q := q.opened = none
  Closes := EndsName
  ends_of_begins h := h
  closes_separator hs after := by
    obtain ⟨c, rest, rfl, hc⟩ := separates_cons hs
    exact endsName_cons (of_mem_dividers hc).2.2.1 _
  run_separator {s l q} hs _ hq := by
    have hmem := fun c (hc : c ∈ s) => of_mem_dividers (mem_dividers hs hc)
    exact ⟨s.foldl Quotes.step q, Quotes.opened_foldl (fun c hc => (hmem c hc).2.1) hq,
      renameMembers_copy (fun c hc => (hmem c hc).2.2.2.1) q⟩

/-- Right after a colon `x` becomes `y`. -/
def TurnsAfterColon (g : List Char → List Char) (x y : List Char) : Prop :=
  ∀ (q : Quotes) (after : List Char), q.opened = none → EndsName after →
    ∃ r : Quotes, r.opened = none ∧
      renameMembers g q (':' :: ' ' :: (x ++ after)) = ':' :: ' ' :: (y ++ renameMembers g r after)

section Turns

variable {g : List Char → List Char} {l : Bool} {x x' y y' s : List Char}

theorem turns_memberReader : (memberReader g).Turns l x y ↔ ∀ (q : Quotes) (after : List Char),
    q.opened = none → EndsName after → ∃ r : Quotes, r.opened = none ∧
      renameMembers g q (x ++ after) = y ++ renameMembers g r after := Iff.rfl

/-- Texts without colons and quotes are copied. -/
theorem turns_copy (h : ∀ c ∈ s, c ≠ ':' ∧ isQuote c = false) : (memberReader g).Turns l s s := by
  rw [turns_memberReader]
  intro q after hq _
  exact ⟨s.foldl Quotes.step q, Quotes.opened_foldl (fun c hc => (h c hc).2) hq,
    renameMembers_copy (fun c hc => (h c hc).1) q after⟩

theorem of_isWord {w : List Char} (hw : IsWord w) : ∀ c ∈ w, c ≠ ':' ∧ isQuote c = false :=
  fun c hc => ⟨ne_of_isIdentifierChar (hw.chars c hc) (by decide),
    isQuote_of_isIdentifierChar (hw.chars c hc)⟩

theorem of_mem_dotted {tail : List Name} : ∀ c ∈ dotted tail, c ≠ ':' ∧ isQuote c = false := by
  intro c hc
  simp only [dotted, List.mem_flatMap, List.mem_cons] at hc
  obtain ⟨x, -, rfl | hc⟩ := hc
  · decide
  · exact of_isWord x.isWord c hc

theorem turns_pathCopy (x : Name) (tail : List Name) :
    (memberReader g).Turns l (x.chars ++ dotted tail) (x.chars ++ dotted tail) := by
  refine turns_copy ?_
  intro c hc
  rcases List.mem_append.mp hc with hc | hc
  · exact of_isWord x.isWord c hc
  · exact of_mem_dotted c hc

theorem opened_literal {w : List Char} (hw : ∀ c ∈ w, isIdentifierChar c = true)
    {previous : Option Char} (hp : previous ≠ some '\\') :
    ((w ++ ['\'']).foldl Quotes.step ⟨some '\'', previous⟩).opened = none := by
  induction w generalizing previous with
  | nil => simp [Quotes.step, hp]
  | cons c w ih =>
    have hc := hw c List.mem_cons_self
    have hquote : c ≠ '\'' := ne_of_isIdentifierChar hc (by decide)
    have hslash : some c ≠ some '\\' := fun h =>
      ne_of_isIdentifierChar hc (show '\\' ∈ breaks by decide) (Option.some.inj h)
    have hstep : Quotes.step ⟨some '\'', previous⟩ c = ⟨some '\'', some c⟩ := by
      simp [Quotes.step, hquote]
    rw [List.cons_append, List.foldl_cons, hstep]
    exact ih (fun d hd => hw d (List.mem_cons_of_mem _ hd)) hslash

theorem turns_literalCopy (label : Label) : (memberReader g).Turns l
    ('\'' :: (label.chars ++ ['\''])) ('\'' :: (label.chars ++ ['\''])) := by
  rw [turns_memberReader]
  intro q after hq _
  have hw := List.all_eq_true.mp label.areWordChars
  refine ⟨_, ?_, renameMembers_copy ?_ q after⟩
  · have hstep : q.step '\'' = ⟨some '\'', some '\''⟩ := by simp [Quotes.step, hq, isQuote]
    rw [List.foldl_cons, hstep]
    exact opened_literal hw (by decide)
  · intro c hc
    simp only [List.mem_cons, List.mem_append, List.not_mem_nil, or_false] at hc
    rcases hc with rfl | hc | rfl
    · decide
    · exact ne_of_isIdentifierChar (hw c hc) (by decide)
    · decide

theorem turns_memberCopy {k : Key} (hx : TurnsAfterColon g x y) :
    (memberReader g).Turns l (k.print ++ ([':', ' '] ++ x)) (k.print ++ ([':', ' '] ++ y)) := by
  rw [turns_memberReader]
  intro q after hq ha
  have hkey : ∀ c ∈ k.print, c ≠ ':' ∧ isQuote c = false := by
    intro c hc
    rcases List.mem_append.mp hc with hc | hc
    · exact of_isWord k.name.isWord c hc
    · split at hc
      · rw [List.mem_singleton.mp hc]
        decide
      · cases hc
  obtain ⟨r, hr, he⟩ := hx (k.print.foldl Quotes.step q) after
    (Quotes.opened_foldl (fun c hc => (hkey c hc).2) hq) ha
  refine ⟨r, hr, ?_⟩
  rw [List.append_assoc, renameMembers_copy fun c hc => (hkey c hc).1]
  show _ ++ renameMembers g _ (':' :: ' ' :: (x ++ after)) = _
  rw [he]
  simp

namespace TurnsAfterColon

theorem between (hx : TurnsAfterColon g x y) (hs : separates s = true)
    (hx' : (memberReader g).Turns false x' y') :
    TurnsAfterColon g (x ++ (s ++ x')) (y ++ (s ++ y')) := by
  intro q after hq ha
  obtain ⟨r, hr, he⟩ := hx q (s ++ (x' ++ after)) hq ((memberReader g).closes_separator hs _)
  obtain ⟨t, ht, he'⟩ := turns_memberReader.mp (hx'.after (l := false) hs fun h => by cases h) r after hr ha
  refine ⟨t, ht, ?_⟩
  rw [List.append_assoc] at he'
  simp only [List.append_assoc]
  rw [he, he', List.append_assoc]

theorem before (hx : TurnsAfterColon g x y) (hs : separates s = true) :
    TurnsAfterColon g (x ++ s) (y ++ s) := by
  simpa using hx.between hs .nil

theorem path {x y : Name} (h : g x.chars = y.chars) (tail : List Name) :
    TurnsAfterColon g (x.chars ++ dotted tail) (y.chars ++ dotted tail) := by
  intro q after hq ha
  have hend : EndsName (dotted tail ++ after) := by
    cases tail with
    | nil => exact ha
    | cons z rest => exact endsName_cons (by decide) _
  refine ⟨(dotted tail).foldl Quotes.step (q.step ':'), ?_, ?_⟩
  · refine Quotes.opened_foldl (fun c hc => (of_mem_dotted c hc).2) ?_
    simp [Quotes.step, hq, isQuote]
  · rw [List.append_assoc, renameMembers_colon hq (leadingName?_name x hend), h,
      renameMembers_copy fun c hc => (of_mem_dotted c hc).1, List.append_assoc]

/-- What does not begin with a name is read as elsewhere. -/
theorem of_turns (hx : (memberReader g).Turns false x y)
    (hc : ∃ c rest, x = c :: rest ∧ isNameStart c = false ∧ Text.isBlank c = false) :
    TurnsAfterColon g x y := by
  obtain ⟨c, rest, rfl, hstart, hblank⟩ := hc
  intro q after hq ha
  have hq' : ((q.step ':').step ' ').opened = none := by simp [Quotes.step, hq, isQuote]
  obtain ⟨r, hr, he⟩ := turns_memberReader.mp hx _ after hq' ha
  refine ⟨r, hr, ?_⟩
  rw [List.cons_append, renameMembers_noName (leadingName?_other hstart hblank _),
    renameMembers_char (by decide), ← List.cons_append, he]

end TurnsAfterColon

end Turns

/-! ## Printed types -/

namespace Ty

variable {g : List Char → List Char} {G : Name → Name}

/-- A type and the same type after a colon. -/
structure IsRead (g : List Char → List Char) (G : Name → Name) (t : Ty) : Prop where
  turns : (memberReader g).Turns false t.print (t.mapColons G false).print
  afterColon : TurnsAfterColon g t.print (t.mapColons G true).print

/-- A type that begins with a bracket or a quote. -/
theorem IsRead.of_turns {t : Ty} (h : (memberReader g).Turns false t.print (t.mapColons G false).print)
    (hsame : t.mapColons G true = t.mapColons G false) {c : Char} {rest : List Char}
    (hc : isNameStart c = false ∧ Text.isBlank c = false) (ht : t.print = c :: rest) :
    IsRead g G t := by
  refine ⟨h, ?_⟩
  rw [hsame]
  exact .of_turns h ⟨c, rest, ht, hc⟩

theorem turns_members {l : Bool} {ms : List (Key × Ty)} (h : ∀ m ∈ ms, IsRead g G m.2) :
    ∀ m ∈ ms, (memberReader g).Turns l (printMember m)
      ((printMember ∘ fun m => (m.1, m.2.mapColons G true)) m) :=
  fun m hm => turns_memberCopy (h m hm).afterColon

theorem isRead (hg : ∀ x : Name, g x.chars = (G x).chars) (t : Ty) : IsRead g G t := by
  induction t using Ty.induct with
  | path first tail => exact ⟨turns_pathCopy first tail, .path (hg first) tail⟩
  | generic first tail arguments ih =>
    have hargs : (memberReader g).Turns false (commas (arguments.map print))
        (commas (arguments.map fun t => (t.mapColons G false).print)) :=
      .commas fun t ht => (ih t ht).turns
    have hopen : separates ['<'] = true := by decide
    have hclose : separates ['>'] = true := by decide
    have h := (turns_pathCopy (g := g) (l := false) first tail).between hopen
      (fun h => by cases h) (hargs.before hclose)
    have h' := (TurnsAfterColon.path (hg first) tail).between hopen (hargs.before hclose)
    constructor
    · simpa [print, mapColons, enclosed, Function.comp_def] using h
    · simpa [print, mapColons, enclosed, Function.comp_def] using h'
  | array item ih =>
    have hclose : separates ['[', ']'] = true := by decide
    constructor
    · rw [mapColons, Bool.false_and, print, print, needsParens_mapColons]
      refine Reader.Turns.before ?_ hclose
      split
      · exact .parens ih.turns
      · exact ih.turns
    · rw [mapColons, Bool.true_and, print, print, needsParens_mapColons]
      refine TurnsAfterColon.before ?_ hclose
      cases item.needsParens
      · exact ih.afterColon
      · exact .of_turns (.parens ih.turns) ⟨'(', _, rfl, by decide, by decide⟩
  | tuple items ih =>
    have hb : ('[', ']') ∈ brackets := by decide
    refine .of_turns ?_ rfl (c := '[') (by decide) rfl
    rw [mapColons, print, print, printAll_eq_map, printAll_eq_map, mapColonsAll_eq_map, List.map_map]
    exact .enclosed hb fun t ht => (ih t ht).turns
  | group inner ih => exact .of_turns (.parens ih.turns) rfl (c := '(') (by decide) rfl
  | join left mark right ihl ihr =>
    have hmark : separates [' ', mark.char, ' '] = true := by cases mark <;> decide
    exact ⟨ihl.turns.between hmark (fun h => by cases h) ihr.turns,
      ihl.afterColon.between hmark ihr.turns⟩
  | literal label => exact .of_turns (turns_literalCopy label) rfl (c := '\'') (by decide) rfl
  | object members ih =>
    have h : (memberReader g).Turns false (object members).print
        ((object members).mapColons G false).print := by
      rw [mapColons, print, print, printMembers_eq_map, printMembers_eq_map,
        mapColonsMembers_eq_map, List.map_map]
      exact .braced (turns_members ih)
    cases members with
    | nil => exact .of_turns h rfl (c := '\x7b') (by decide) rfl
    | cons m rest => exact .of_turns h rfl (c := '\x7b') (by decide) rfl
  | function parameters result ihp ihr =>
    have hb : ('(', ')') ∈ brackets := by decide
    have harrow : separates [' ', '=', '>', ' '] = true := by decide
    refine .of_turns ?_ rfl (c := '(') (by decide) rfl
    rw [mapColons, print, print, printMembers_eq_map, printMembers_eq_map, mapColonsMembers_eq_map,
      List.map_map]
    have hp : (memberReader g).Turns false (enclosed '(' ')' (parameters.map printMember)) _ :=
      .enclosed hb (turns_members ihp)
    exact hp.between harrow (fun h => by cases h) ihr.turns

/-- Renaming the members of a printed type renames the names after its colons. -/
theorem renameMembers_print (hg : ∀ x : Name, g x.chars = (G x).chars) (t : Ty) :
    renameMembers g {} t.print = (t.mapColons G false).print := by
  obtain ⟨q, -, he⟩ := turns_memberReader.mp (isRead hg t).turns {} [] rfl endsName_nil
  rw [List.append_nil] at he
  rw [he, renameMembers.eq_def]
  exact List.append_nil _

end Ty

end ElementWrappers.TypeExpr
