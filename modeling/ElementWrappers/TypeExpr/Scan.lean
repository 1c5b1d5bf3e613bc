import ElementWrappers.Text.Blank

/-!
# Scanning type expressions

String literals and brackets of a type expression, seen from left to right. A
quote closes the literal it opened unless a backslash stands right before it; an
unclosed literal reaches to the end. The angle bracket of an arrow is none.
-/

namespace ElementWrappers.TypeExpr

def isQuote (c : Char) : Bool := c == '\'' || c == '"' || c == '\x60'

/-- What the characters before a place say about string literals. -/
structure Quotes where
  /-- The quote of the literal that is open. -/
  opened : Option Char := none
  previous : Option Char := none
  deriving DecidableEq, Repr

namespace Quotes

def step (q : Quotes) (c : Char) : Quotes :=
  ⟨match q.opened with
    | some d => if c = d ∧ q.previous ≠ some '\\' then none else some d
    | none => if isQuote c then some c else none,
   some c⟩

/-- Whether a character belongs to a literal, quotes included. -/
def covers (q : Quotes) (c : Char) : Bool := q.opened.isSome || isQuote c

end Quotes

/-- How `c` changes the number of open brackets. -/
def bracketShift (previous : Option Char) (c : Char) : Int :=
  if c = '<' ∨ c = '{' ∨ c = '(' ∨ c = '[' then 1
  else if c = '>' then (if previous = some '=' then 0 else -1)
  else if c = '}' ∨ c = ')' ∨ c = ']' then -1
  else 0

/-! ## Splitting -/

/-- A part of a text and the separator after it; the last part has none. -/
structure Piece where
  text : List Char
  after : Option Char
  deriving DecidableEq, Repr

/-- Literals and brackets before a place. -/
structure Scan where
  quotes : Quotes := {}
  depth : Int := 0
  deriving DecidableEq, Repr

namespace Scan

def step (s : Scan) (c : Char) : Scan :=
  ⟨s.quotes.step c,
   if s.quotes.covers c then s.depth else s.depth + bracketShift s.quotes.previous c⟩

/-- Whether `c` separates two parts here. -/
def cuts (separators : List Char) (s : Scan) (c : Char) : Bool :=
  !s.quotes.covers c && s.depth == 0 && separators.contains c

end Scan

/-- Puts a character in front of the first piece. -/
def pushFront (c : Char) : List Piece → List Piece
  | [] => [⟨[c], none⟩]
  | p :: rest => ⟨c :: p.text, p.after⟩ :: rest

/-- The parts of a text from a place with the given surroundings on. -/
def splitFrom (separators : List Char) (s : Scan) : List Char → List Piece
  | [] => [⟨[], none⟩]
  | c :: rest =>
    if s.cuts separators c then ⟨[], some c⟩ :: splitFrom separators (s.step c) rest
    else pushFront c (splitFrom separators (s.step c) rest)

/-- The parts between the separators outside brackets and literals. -/
def split (separators : List Char) (text : List Char) : List Piece := splitFrom separators {} text

/-- The text of a list of pieces. -/
def unsplit (pieces : List Piece) : List Char := pieces.flatMap fun p => p.text ++ p.after.toList

theorem unsplit_pushFront (c : Char) (pieces : List Piece) :
    unsplit (pushFront c pieces) = c :: unsplit pieces := by
  cases pieces <;> simp [unsplit, pushFront]

/-- Splitting loses nothing. -/
theorem unsplit_splitFrom (separators : List Char) (s : Scan) (text : List Char) :
    unsplit (splitFrom separators s text) = text := by
  induction text generalizing s with
  | nil => simp [splitFrom, unsplit]
  | cons c rest ih =>
    simp only [splitFrom]
    split
    · have h := ih (s.step c)
      simp only [unsplit] at h
      simp [unsplit, h]
    · rw [unsplit_pushFront, ih]

theorem splitFrom_ne_nil (separators : List Char) (s : Scan) (text : List Char) :
    splitFrom separators s text ≠ [] := by
  cases text with
  | nil => simp [splitFrom]
  | cons c rest =>
    simp only [splitFrom]
    split
    · simp
    · cases splitFrom separators (s.step c) rest <;> simp [pushFront]

/-- The text is the piece, its separator, and what stands before and after. -/
theorem split_pieces {separators text : List Char} {p : Piece} {x y : List Piece}
    (h : split separators text = x ++ p :: y) :
    text = unsplit x ++ (p.text ++ (p.after.toList ++ unsplit y)) := by
  rw [← unsplit_splitFrom separators {} text, ← split, h]
  simp [unsplit]

/-- No piece is longer than the text. -/
theorem length_of_mem_split {separators text : List Char} {p : Piece}
    (h : p ∈ split separators text) : p.text.length ≤ text.length := by
  obtain ⟨x, y, he⟩ := List.append_of_mem h
  have hl := congrArg List.length (split_pieces he)
  simp only [List.length_append] at hl
  omega

/-- Only the last piece is without a separator. -/
theorem after_eq_none_iff {separators : List Char} {s : Scan} {text : List Char} {p : Piece}
    {x y : List Piece} (h : splitFrom separators s text = x ++ p :: y) :
    p.after = none ↔ y = [] := by
  induction text generalizing s x p y with
  | nil =>
    cases x with
    | nil => simp only [splitFrom, List.nil_append, List.cons.injEq] at h; simp [← h.1, ← h.2]
    | cons q qs => simp [splitFrom] at h
  | cons c rest ih =>
    simp only [splitFrom] at h
    split at h
    · cases x with
      | nil =>
        simp only [List.nil_append, List.cons.injEq] at h
        rw [← h.1, ← h.2]
        simp [splitFrom_ne_nil]
      | cons q qs =>
        simp only [List.cons_append, List.cons.injEq] at h
        exact ih h.2
    · cases hs : splitFrom separators (s.step c) rest with
      | nil => exact absurd hs (splitFrom_ne_nil _ _ _)
      | cons q qs =>
        rw [hs] at h
        simp only [pushFront] at h
        cases x with
        | nil =>
          simp only [List.nil_append, List.cons.injEq] at h
          have hq : q.after = none ↔ qs = [] := ih (x := []) hs
          rw [← h.1, ← h.2]
          exact hq
        | cons r rs =>
          simp only [List.cons_append, List.cons.injEq] at h
          exact ih (x := q :: rs) (by rw [hs, h.2]; rfl)

/-- Of several pieces each is shorter than the text. -/
theorem length_lt_of_mem_split {separators text : List Char} {p : Piece}
    (h : p ∈ split separators text) (hm : 2 ≤ (split separators text).length) :
    p.text.length < text.length := by
  obtain ⟨x, y, he⟩ := List.append_of_mem h
  have hl := congrArg List.length (split_pieces he)
  simp only [List.length_append] at hl
  cases y with
  | cons q y =>
    cases hp : p.after with
    | none => simp [after_eq_none_iff he] at hp
    | some c => simp only [hp, Option.toList_some, List.length_singleton] at hl; omega
  | nil =>
    cases x with
    | nil => simp [he] at hm
    | cons q x =>
      cases hq : q.after with
      | none =>
        have := (after_eq_none_iff (x := []) he).mp hq
        simp at this
      | some c =>
        simp only [unsplit, List.flatMap_cons, hq, Option.toList_some, List.length_append,
          List.length_singleton] at hl
        omega

/-! ## Brackets -/

/-- Whether an arrow stands outside all brackets. -/
def hasArrow (depth : Int) (previous : Option Char) : List Char → Bool
  | [] => false
  | c :: rest =>
    (c == '>' && previous == some '=' && depth == 0) ||
      hasArrow (depth + bracketShift previous c) (some c) rest

/-- Whether a bracket that is open with `inner` brackets of its kind inside it
closes with the last character. -/
def closesAtEnd (opening closing previous : Char) (inner : Nat) : List Char → Bool
  | [] => false
  | c :: rest =>
    if c = opening then closesAtEnd opening closing c (inner + 1) rest
    else if c = closing && !(closing == '>' && previous == '=') then
      match inner with
      | 0 => rest.isEmpty
      | n + 1 => closesAtEnd opening closing c n rest
    else closesAtEnd opening closing c inner rest

/-- The inside of a text that one pair of brackets encloses. -/
def enclosed? (opening closing : Char) : List Char → Option (List Char)
  | [] => none
  | c :: rest =>
    if c = opening && closesAtEnd opening closing c 0 rest then some rest.dropLast else none

end ElementWrappers.TypeExpr
