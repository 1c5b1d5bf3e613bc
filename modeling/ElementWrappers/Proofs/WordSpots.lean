import Mathlib
import ElementWrappers.Proofs.WordRename

/-!
# Spots of words

What stands around each word of a type expression: dots, colons, marks, brackets
and string literals before it, and what comes next. Renaming words changes the spot
of none: `occurrences_mapWords`.
-/

namespace ElementWrappers.TypeExpr

/-! ## Literals -/

/-- A string literal that is open. A backslash escapes the character behind it,
also when that is a backslash. -/
structure Literal where
  quote : Char
  escaped : Bool := false
  deriving DecidableEq, Repr

/-- The literal that is open after one character more. -/
def Literal.step : Option Literal → Char → Option Literal
  | none, c => if isQuote c then some ⟨c, false⟩ else none
  | some l, c =>
    if l.escaped then some ⟨l.quote, false⟩
    else if c = l.quote then none
    else some ⟨l.quote, c == '\\'⟩

/-! ## What stands before a word -/

/-- What the nearest character that is not blank says about a word behind it. -/
inductive Lead where
  /-- A type may begin: there is none, or it is one of `leads`. -/
  | operand
  | colon
  | other
  deriving DecidableEq, Repr

/-- The characters behind which a type may begin. -/
def leads : List Char := ['|', '&', '(', '[', ',', '<']

def Lead.step (l : Lead) (c : Char) : Lead :=
  if Text.isBlank c then l
  else if c = ':' then .colon
  else if leads.contains c then .operand
  else .other

/-- What the characters before a place say about a word that begins there. -/
structure Before where
  place : Place := {}
  /-- The last character belongs to a word. -/
  inWord : Bool := false
  /-- The number of dots right before the place. -/
  dots : Nat := 0
  lead : Lead := .operand
  /-- There is an opening brace. -/
  braced : Bool := false
  literal : Option Literal := none
  deriving DecidableEq, Repr

namespace Before

def afterWord (b : Before) : Before :=
  ⟨b.place.afterWord, true, 0, .other, b.braced, b.literal.map fun l => ⟨l.quote, false⟩⟩

def step (b : Before) (c : Char) : Before :=
  if isIdentifierChar c then b.afterWord
  else ⟨b.place.step c, false, if c = '.' then b.dots + 1 else 0, b.lead.step c,
    b.braced || c == '\x7b', Literal.step b.literal c⟩

def run (b : Before) (text : List Char) : Before := text.foldl step b

/-- Only quotes open literals. -/
structure IsQuoted (b : Before) : Prop where
  place : b.place.IsQuoted
  literal : ∀ l, b.literal = some l → isQuote l.quote = true

/-- Blanks make no difference here. -/
structure IsSettled (b : Before) : Prop where
  quoted : b.IsQuoted
  begins : b.place.begins = true
  unescaped : b.place.escaped = false
  inWord : b.inWord = false
  dots : b.dots = 0
  literal : ∀ l, b.literal = some l → l.escaped = false

/-- A type may begin right here. -/
structure IsFresh (b : Before) : Prop extends b.IsSettled where
  lead : b.lead = .operand

/-- Two places that the next character which is neither a word's, a quote, a dot nor a
backslash makes equal. -/
structure Alike (b b' : Before) : Prop where
  opened : b.place.opened = b'.place.opened
  braced : b.braced = b'.braced
  literal : b.literal.map Literal.quote = b'.literal.map Literal.quote

end Before

/-! ## What stands behind a word -/

/-- The characters before which a type may end. -/
def closers : List Char := ['|', '&', ')', ']', ',', '>', '<', '.']

/-- Whether a type may end before the characters `after`: there are none, or the
next is one of `closers`, or a pair of brackets comes next. -/
def endsOperand (after : List Char) : Bool :=
  match Text.trimStart after with
  | [] => true
  | '[' :: ']' :: _ => true
  | c :: _ => closers.contains c

/-- A word and its spot. -/
structure Occurrence where
  word : List Char
  before : Before
  /-- The word ends like the key of an object. -/
  keyEnd : Bool
  /-- A type may end behind the word. -/
  ends : Bool
  deriving DecidableEq, Repr

/-- The words of a text that stands between `b` and `rest`. -/
def occurrences (b : Before) (rest : List Char) : List Char → List Occurrence
  | [] => []
  | c :: text =>
    let after := text.dropWhile isIdentifierChar ++ rest
    (if isIdentifierChar c && !b.inWord then
      [⟨c :: text.takeWhile isIdentifierChar, b, startsLikeKeyEnd after, endsOperand after⟩]
    else []) ++ occurrences (b.step c) rest text

/-- The words of a text. -/
def words (text : List Char) : List (List Char) := (occurrences {} [] text).map Occurrence.word

section Laws

variable {b b' : Before} {c : Char} {w x y after rest rest' : List Char}

namespace Before

theorem step_part (hc : isIdentifierChar c = true) : b.step c = b.afterWord := if_pos hc

theorem step_other (hc : isIdentifierChar c = false) : b.step c =
    ⟨b.place.step c, false, if c = '.' then b.dots + 1 else 0, b.lead.step c,
      b.braced || c == '\x7b', Literal.step b.literal c⟩ := by
  rw [step, hc]
  rfl

theorem afterWord_afterWord : b.afterWord.afterWord = b.afterWord := by
  rw [afterWord, afterWord, Option.map_map]
  rfl

theorem run_append (x y : List Char) : b.run (x ++ y) = (b.run x).run y := List.foldl_append

theorem run_word (hw : IsWord w) : b.run w = b.afterWord := by
  obtain ⟨hne, hc⟩ := hw
  induction w generalizing b with
  | nil => exact absurd rfl hne
  | cons c w ih =>
    have hrest := ih (b := b.afterWord)
    rw [run, List.foldl_cons, step_part (hc c List.mem_cons_self)]
    cases w with
    | nil => rfl
    | cons d w =>
      exact (hrest (List.cons_ne_nil _ _) fun e he => hc e (List.mem_cons_of_mem _ he)).trans
        afterWord_afterWord

theorem IsQuoted.afterWord (h : b.IsQuoted) : b.afterWord.IsQuoted := by
  refine ⟨h.place.afterWord, fun l hl => ?_⟩
  obtain ⟨l', hl', rfl⟩ := Option.map_eq_some_iff.mp hl
  exact h.literal l' hl'

theorem IsQuoted.step (h : b.IsQuoted) (c : Char) : (b.step c).IsQuoted := by
  by_cases hc : isIdentifierChar c = true
  · rw [step_part hc]
    exact h.afterWord
  · rw [step_other (Bool.eq_false_of_not_eq_true hc)]
    refine ⟨h.place.step c, fun l hl => ?_⟩
    simp only at hl
    cases hb : b.literal with
    | none =>
      rw [hb, Literal.step] at hl
      split at hl
      · cases hl
        assumption
      · cases hl
    | some l' =>
      have hq := h.literal l' hb
      rw [hb, Literal.step] at hl
      split at hl
      · cases hl
        exact hq
      split at hl
      · cases hl
      · cases hl
        exact hq

theorem IsQuoted.run (h : b.IsQuoted) (x : List Char) : (b.run x).IsQuoted := by
  induction x generalizing b with
  | nil => exact h
  | cons c x ih => exact ih (h.step c)

/-- A character that neither goes on with a word nor has to do with literals. -/
structure IsNeutral (c : Char) : Prop where
  part : isIdentifierChar c = false
  quote : isQuote c = false
  backslash : c ≠ '\\'
  dot : c ≠ '.'

/-- Behind a neutral character it does not matter what stood right before it. -/
theorem step_neutral (h : b.IsQuoted) (hc : IsNeutral c) : b.step c =
    ⟨⟨true, if Text.isBlank c then b.place.listed else c == '\x7b' || c == ',' || c == ';',
        b.place.opened, false⟩,
      false, 0, b.lead.step c, b.braced || c == '\x7b',
      b.literal.map fun l => ⟨l.quote, false⟩⟩ := by
  obtain ⟨hpart, hquote, hbackslash, hdot⟩ := hc
  have hopened : (b.place.step c).opened = b.place.opened := by
    simp only [Place.step]
    cases ho : b.place.opened with
    | none => simp [hquote]
    | some d =>
      have hd : c ≠ d := by
        rintro rfl
        rw [h.place c ho] at hquote
        cases hquote
      simp [hd]
  have hliteral : Literal.step b.literal c = b.literal.map fun l => ⟨l.quote, false⟩ := by
    cases hl : b.literal with
    | none => simp [Literal.step, hquote]
    | some l =>
      have hq : c ≠ l.quote := by
        rintro rfl
        rw [h.literal l hl] at hquote
        cases hquote
      simp [Literal.step, hq, hbackslash]
  have hplace : b.place.step c = ⟨true,
      if Text.isBlank c then b.place.listed else c == '\x7b' || c == ',' || c == ';',
      b.place.opened, false⟩ := by
    rw [← hopened]
    simp [Place.step, hpart, hdot, hbackslash]
  rw [step_other hpart, hplace, hliteral, if_neg hdot]

theorem isNeutral_of_isBlank (h : Text.isBlank c = true) : IsNeutral c := by
  have hne : ∀ d, Text.isBlank d = false → c ≠ d := by
    rintro d hd rfl
    rw [h] at hd
    cases hd
  refine ⟨isIdentifierChar_of_isBlank h, ?_, hne _ (by decide), hne _ (by decide)⟩
  simp [isQuote, hne '\'' (by decide), hne '"' (by decide), hne '\x60' (by decide)]

theorem isNeutral_of_mem_leads (h : c ∈ leads) : IsNeutral c := by
  have hall : leads.all (fun d => !isIdentifierChar d && !isQuote d && d != '\\' && d != '.') =
      true := by decide +kernel
  have hc := List.all_eq_true.mp hall c h
  simp only [Bool.and_eq_true, Bool.not_eq_true', bne_iff_ne] at hc
  exact ⟨hc.1.1.1, hc.1.1.2, hc.1.2, hc.2⟩

theorem step_blank (h : b.IsQuoted) (hc : Text.isBlank c = true) : b.step c =
    ⟨⟨true, b.place.listed, b.place.opened, false⟩, false, 0, b.lead, b.braced,
      b.literal.map fun l => ⟨l.quote, false⟩⟩ := by
  have hbrace : c ≠ '\x7b' := by
    rintro rfl
    cases hc
  rw [step_neutral h (isNeutral_of_isBlank hc), if_pos hc, Lead.step, if_pos hc]
  simp [hbrace]

theorem IsSettled.step_blank (h : b.IsSettled) (hc : Text.isBlank c = true) : b.step c = b := by
  obtain ⟨hq, hbegins, hescaped, hword, hdots, hliteral⟩ := h
  rw [Before.step_blank hq hc]
  obtain ⟨⟨begins, listed, opened, escaped⟩, inWord, dots, lead, braced, literal⟩ := b
  simp only at hbegins hescaped hword hdots
  subst hbegins hescaped hword hdots
  cases literal with
  | none => rfl
  | some l =>
    obtain ⟨quote, escaped⟩ := l
    obtain rfl : escaped = false := hliteral _ rfl
    rfl

theorem IsSettled.run_blanks (h : b.IsSettled) {gap : List Char}
    (hg : ∀ c ∈ gap, Text.isBlank c = true) : b.run gap = b := by
  induction gap with
  | nil => rfl
  | cons c gap ih =>
    rw [run, List.foldl_cons, h.step_blank (hg c List.mem_cons_self)]
    exact ih fun d hd => hg d (List.mem_cons_of_mem _ hd)

theorem isSettled_step (h : b.IsQuoted) (hc : IsNeutral c) : (b.step c).IsSettled := by
  have hquoted := h.step c
  rw [step_neutral h hc] at hquoted ⊢
  refine ⟨hquoted, rfl, rfl, rfl, rfl, fun l hl => ?_⟩
  obtain ⟨l', -, rfl⟩ := Option.map_eq_some_iff.mp hl
  rfl

/-- Behind a lead a type may begin. -/
theorem isFresh_step (h : b.IsQuoted) (hc : c ∈ leads) : (b.step c).IsFresh := by
  have hall : leads.all (fun d => !Text.isBlank d && d != ':') = true := by decide
  obtain ⟨hblank, hcolon⟩ : Text.isBlank c = false ∧ c ≠ ':' := by
    simpa using List.all_eq_true.mp hall c hc
  refine ⟨isSettled_step h (isNeutral_of_mem_leads hc), ?_⟩
  rw [step_neutral h (isNeutral_of_mem_leads hc)]
  show b.lead.step c = .operand
  rw [Lead.step, hblank, if_neg Bool.false_ne_true, if_neg hcolon,
    if_pos (List.contains_iff_mem.mpr hc)]

/-- How many blanks there are does not count, if there are some. -/
theorem run_blanks (h : b.IsQuoted) {gap : List Char} (hne : gap ≠ [])
    (hg : ∀ c ∈ gap, Text.isBlank c = true) : b.run gap = b.step ' ' := by
  induction gap generalizing b with
  | nil => exact absurd rfl hne
  | cons c gap ih =>
    have hc : b.step c = b.step ' ' := by
      rw [step_blank h (hg c List.mem_cons_self), step_blank h (by decide)]
    have hagain : (b.step ' ').step ' ' = b.step ' ' := by
      rw [step_blank (h.step ' ') (by decide), step_blank h (by decide), Option.map_map]
      rfl
    rw [run, List.foldl_cons, hc]
    cases gap with
    | nil => rfl
    | cons d gap =>
      have hrest : ∀ e ∈ d :: gap, Text.isBlank e = true :=
        fun e he => hg e (List.mem_cons_of_mem _ he)
      exact (ih (h.step ' ') (List.cons_ne_nil _ _) hrest).trans hagain

theorem isFresh_start : IsFresh {} :=
  ⟨⟨⟨Place.isQuoted_start, nofun⟩, rfl, rfl, rfl, rfl, nofun⟩, rfl⟩

end Before

@[simp] theorem occurrences_nil : occurrences b rest [] = [] := rfl

theorem occurrences_char (hc : isIdentifierChar c = false) (x : List Char) :
    occurrences b rest (c :: x) = occurrences (b.step c) rest x := by
  rw [occurrences, hc]
  rfl

theorem occurrences_inWord (hb : b.inWord = true) (c : Char) (x : List Char) :
    occurrences b rest (c :: x) = occurrences (b.step c) rest x := by
  rw [occurrences, hb, Bool.not_true, Bool.and_false]
  rfl

/-- Inside a word no word begins. -/
theorem occurrences_inside (hb : b.inWord = true) (hw : ∀ c ∈ w, isIdentifierChar c = true)
    (after : List Char) : occurrences b rest (w ++ after) = occurrences (b.run w) rest after := by
  induction w generalizing b with
  | nil => rfl
  | cons c w ih =>
    have hc := hw c List.mem_cons_self
    rw [List.cons_append, occurrences_inWord hb,
      ih (by rw [Before.step_part hc]; rfl) fun d hd => hw d (List.mem_cons_of_mem _ hd)]
    rfl

theorem occurrences_word (hb : b.inWord = false) (hw : IsWord w) (ha : wordMayEnd after = true) :
    occurrences b rest (w ++ after) =
      ⟨w, b, startsLikeKeyEnd (after ++ rest), endsOperand (after ++ rest)⟩ ::
        occurrences b.afterWord rest after := by
  obtain ⟨c, u, rfl⟩ := List.exists_cons_of_ne_nil hw.ne_nil
  have hc := hw.chars c List.mem_cons_self
  have hu : ∀ d ∈ u, isIdentifierChar d = true := fun d hd => hw.chars d (List.mem_cons_of_mem _ hd)
  have hin : (b.step c).inWord = true := by rw [Before.step_part hc]; rfl
  have hrun : (b.step c).run u = b.afterWord := b.run_word hw
  rw [List.cons_append, occurrences, (takeWhile_word hu ha).1, (takeWhile_word hu ha).2, hc, hb,
    occurrences_inside hin hu, hrun]
  rfl

/-- The words of a text in two parts, of which the second does not go on with a
word of the first. -/
theorem occurrences_append
    (h : ∀ c, x.getLast? = some c → isIdentifierChar c = true → wordMayEnd y = true) :
    occurrences b rest (x ++ y) =
      occurrences b (y ++ rest) x ++ occurrences (b.run x) rest y := by
  induction x generalizing b with
  | nil => rfl
  | cons c x ih =>
    have hrest : ∀ d, x.getLast? = some d → isIdentifierChar d = true → wordMayEnd y = true :=
      fun d hd => h d (by rw [List.getLast?_cons, hd]; rfl)
    rw [List.cons_append, occurrences, occurrences, ih hrest]
    by_cases hc : isIdentifierChar c = true
    · -- the word at `c` ends in `x`, or where `x` ends
      have hend : wordMayEnd (x.dropWhile isIdentifierChar ++ y) = true := by
        cases hd : x.dropWhile isIdentifierChar with
        | cons d z =>
          have hd' := wordMayEnd_dropWhile x
          rw [hd] at hd'
          exact hd'
        | nil =>
          have hall := List.dropWhile_eq_nil_iff.mp hd
          refine h ((c :: x).getLast (List.cons_ne_nil c x)) (List.getLast?_eq_some_getLast _) ?_
          rcases List.mem_cons.mp (List.getLast_mem (List.cons_ne_nil c x)) with he | hm
          · rw [he]
            exact hc
          · exact hall _ hm
      have htake := @takeWhile_word (x.takeWhile isIdentifierChar)
        (x.dropWhile isIdentifierChar ++ y) (fun d hd => List.mem_takeWhile_imp hd) hend
      rw [← List.append_assoc, List.takeWhile_append_dropWhile] at htake
      rw [htake.1, htake.2, List.append_assoc, List.append_assoc]
      rfl
    · rw [Bool.eq_false_of_not_eq_true hc]
      rfl

theorem occurrences_append_of_wordMayEnd (hy : wordMayEnd y = true) :
    occurrences b rest (x ++ y) =
      occurrences b (y ++ rest) x ++ occurrences (b.run x) rest y :=
  occurrences_append fun _ _ _ => hy

end Laws

/-! ## Renaming words -/

/-- Whether the word is a use of a type. -/
def Occurrence.uses (o : Occurrence) : Bool :=
  o.before.place.begins && o.before.place.opened.isNone && !(o.before.place.listed && o.keyEnd)

section MapWords

variable {f : List Char → List Char} {w : List Char}

variable {c : Char}

theorem endsOperand_blank (hc : Text.isBlank c = true) (x : List Char) :
    endsOperand (c :: x) = endsOperand x := by
  rw [endsOperand, Text.trimStart, List.dropWhile_cons_of_pos hc]
  rfl

theorem endsOperand_cons (hc : Text.isBlank c = false) (x : List Char) :
    endsOperand (c :: x) = (closers.contains c || c == '[' && x.head? == some ']') := by
  have hb : ¬ Text.isBlank c = true := by rw [hc]; exact Bool.false_ne_true
  rw [endsOperand, Text.trimStart, List.dropWhile_cons_of_neg hb]
  split
  · rename_i h
    cases h
  · rename_i h
    cases h
    rfl
  · rename_i d z hne h
    cases h
    by_cases ho : c = '['
    · have hx : x.head? ≠ some ']' := by
        intro hx
        obtain ⟨z, rfl⟩ := List.head?_eq_some_iff.mp hx
        exact hne z ho rfl
      simp [hx]
    · simp [ho]

theorem endsOperand_word (hw : IsWord w) (rest : List Char) : endsOperand (w ++ rest) = false := by
  obtain ⟨c, u, rfl⟩ := List.exists_cons_of_ne_nil hw.ne_nil
  have hc := hw.chars c List.mem_cons_self
  have hends : closers.contains c = false := by
    refine Bool.eq_false_iff.mpr fun hm => ?_
    have hall : closers.all (fun d => !isIdentifierChar d) = true := by decide +kernel
    have hnot := List.all_eq_true.mp hall c (List.contains_iff_mem.mp hm)
    rw [hc] at hnot
    cases hnot
  have hbracket : (c == '[') = false :=
    beq_false_of_ne (ne_of_isIdentifierChar hc (show '[' ∈ breaks by decide))
  rw [List.cons_append, endsOperand_cons (isBlank_of_isIdentifierChar hc), hends, hbracket]
  rfl

/-- Renaming words moves nothing that stands behind a word. -/
theorem endsOperand_mapWords (hf : KeepsWords f) {p : Place} (text : List Char) :
    endsOperand (mapWords f p text) = endsOperand text := by
  induction text using words_induction generalizing p with
  | nil => rw [mapWords_nil]
  | char c rest hc ih =>
    rw [mapWords_char hc]
    by_cases hb : Text.isBlank c = true
    · rw [endsOperand_blank hb, endsOperand_blank hb, ih]
    · rw [Bool.not_eq_true] at hb
      have hhead := @head_mapWords f (p.step c) hf ']'
        (not_isIdentifierChar_of_mem_breaks (by decide)) rest
      rw [endsOperand_cons hb, endsOperand_cons hb, Bool.eq_iff_iff]
      simp [hhead]
  | word w after hw ha _ =>
    rw [mapWords_word hw ha, endsOperand_word hw, endsOperand_word (isWord_ite hf hw _)]

/-- What becomes of a word that may be renamed. -/
def Occurrence.renamed (f : List Char → List Char) (o : Occurrence) : Occurrence :=
  if o.uses then { o with word := f o.word } else o

/-- Renaming words renames those that are uses, and changes no spot. -/
theorem occurrences_mapWords (hf : KeepsWords f) {b : Before} (text : List Char)
    (hb : b.inWord = true → wordMayEnd text = true) :
    occurrences b [] (mapWords f b.place text) =
      (occurrences b [] text).map (Occurrence.renamed f) := by
  induction text using words_induction generalizing b with
  | nil => rw [mapWords_nil]; rfl
  | char c rest hc ih =>
    have hplace : (b.step c).place = b.place.step c := by rw [Before.step_other hc]
    have hword : (b.step c).inWord = false := by rw [Before.step_other hc]
    rw [mapWords_char hc, occurrences_char hc, occurrences_char hc, ← hplace, ih]
    rw [hword]
    exact fun h => absurd h Bool.false_ne_true
  | word w after hw ha ih =>
    have hout : b.inWord = false := by
      by_contra h
      have hend := hb (Bool.eq_true_of_not_eq_false h)
      rw [wordMayEnd_word hw] at hend
      cases hend
    have ha' : wordMayEnd (mapWords f b.afterWord.place after) = true := by
      rw [wordMayEnd_mapWords hf, ha]
    have hrest := ih (b := b.afterWord) fun _ => ha
    rw [mapWords_word hw ha, occurrences_word hout hw ha, List.map_cons, ← hrest]
    have hu : Occurrence.uses ⟨w, b, startsLikeKeyEnd (after ++ []), endsOperand (after ++ [])⟩ =
        b.place.uses after := by
      rw [List.append_nil]
      rfl
    rw [Occurrence.renamed, hu, List.append_nil]
    have hplace : b.place.afterWord = b.afterWord.place := rfl
    by_cases h : b.place.uses after = true
    · rw [if_pos h, if_pos h, hplace, occurrences_word hout (hf w hw) ha', List.append_nil,
        startsLikeKeyEnd_mapWords hf, endsOperand_mapWords hf]
    · rw [if_neg h, if_neg h, hplace, occurrences_word hout hw ha', List.append_nil,
        startsLikeKeyEnd_mapWords hf, endsOperand_mapWords hf]

end MapWords

end ElementWrappers.TypeExpr
