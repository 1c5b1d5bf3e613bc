import ElementWrappers.TypeExpr.Names
import ElementWrappers.TypeExpr.Scan

/-!
# Shapes of type expressions

The outermost form of a type expression, and the renaming that follows it
inwards. Literals, function types and texts of no known form are kept.
-/

namespace ElementWrappers.TypeExpr

/-- The outermost form of a type expression. -/
inductive Shape where
  /-- Nothing to rename. -/
  | fixed
  /-- Members of a union or an intersection. -/
  | members (pieces : List Piece)
  /-- An object type. -/
  | object
  | array (item : List Char)
  | group (inner : List Char)
  | tuple (items : List (List Char))
  | generic (base : List Char) (arguments : List (List Char))
  /-- A name, a dot and further names. -/
  | path (first rest : List Char)
  | name
  deriving DecidableEq, Repr

/-- Whether a text begins like a string or a number. -/
def isLiteral : List Char → Bool
  | [] => false
  | c :: _ => isQuote c || c.isDigit

/-- The items of a list, separated by commas. -/
def listItems (text : List Char) : List (List Char) := (split [','] text).map Piece.text

/-- The item type of an array type. -/
def arrayItem? (text : List Char) : Option (List Char) :=
  if ['[', ']'].isSuffixOf text then some (text.take (text.length - 2)) else none

/-- The generic type and the argument list. -/
def generic? (text : List Char) : Option (List Char × List Char) :=
  match text.dropWhile (· != '<') with
  | [] => none
  | c :: rest =>
    if closesAtEnd '<' '>' c 0 rest then some (text.takeWhile (· != '<'), rest.dropLast) else none

/-- The first name of a dotted name, and the rest from the dot on. -/
def path? (text : List Char) : Option (List Char × List Char) :=
  match text.splitOn '.' with
  | first :: next :: more =>
    if (first :: next :: more).all isName then some (first, text.drop first.length) else none
  | _ => none

namespace Shape

/-- The form of a text that has no mark, arrow or braces of its own. -/
def ofSingle (text : List Char) : Shape :=
  match arrayItem? text with
  | some item => .array item
  | none =>
    match enclosed? '(' ')' text with
    | some inner => .group inner
    | none =>
      match enclosed? '[' ']' text with
      | some inner => .tuple (listItems inner)
      | none =>
        match generic? text with
        | some (base, arguments) => .generic base (listItems arguments)
        | none =>
          match path? text with
          | some (first, rest) => .path first rest
          | none => if isName text then .name else .fixed

/-- The form of a text without blanks around it. -/
def of (text : List Char) : Shape :=
  if text.isEmpty || isBuiltIn (String.ofList text) || isLiteral text then .fixed
  else if 2 ≤ (split ['|', '&'] text).length then .members (split ['|', '&'] text)
  else if hasArrow 0 none text then .fixed
  else if text.head? == some '{' && text.getLast? == some '}' then .object
  else ofSingle text

/-- The type expressions inside a shape. -/
def inner : Shape → List (List Char)
  | .members pieces => pieces.map Piece.text
  | .array item => [item]
  | .group inner => [inner]
  | .tuple items => items
  | .generic base arguments => base :: arguments
  | .fixed | .object | .path _ _ | .name => []

end Shape

theorem length_of_mem_listItems {text item : List Char} (h : item ∈ listItems text) :
    item.length ≤ text.length := by
  obtain ⟨p, hp, rfl⟩ := List.mem_map.mp h
  exact length_of_mem_split hp

theorem length_of_arrayItem? {text item : List Char} (h : arrayItem? text = some item) :
    item.length < text.length := by
  unfold arrayItem? at h
  split at h
  · rename_i hs
    have hl := (List.isSuffixOf_iff_suffix.mp hs).length_le
    cases h
    simp only [List.length_cons, List.length_nil, List.length_take] at hl ⊢
    omega
  · cases h

theorem length_of_enclosed? {opening closing : Char} {text inner : List Char}
    (h : enclosed? opening closing text = some inner) : inner.length < text.length := by
  unfold enclosed? at h
  split at h
  · cases h
  · split at h
    · cases h
      simp only [List.length_dropLast, List.length_cons]
      omega
    · cases h

theorem length_of_generic? {text base arguments : List Char}
    (h : generic? text = some (base, arguments)) :
    base.length < text.length ∧ arguments.length < text.length := by
  unfold generic? at h
  split at h
  · cases h
  · rename_i c rest hd
    have hl : text.length = (text.takeWhile (· != '<')).length + (rest.length + 1) := by
      rw [← List.length_cons, ← hd, ← List.length_append, List.takeWhile_append_dropWhile]
    split at h
    · cases h
      simp only [List.length_dropLast]
      omega
    · cases h

theorem length_of_mem_inner_ofSingle {text part : List Char}
    (h : part ∈ (Shape.ofSingle text).inner) : part.length < text.length := by
  unfold Shape.ofSingle at h
  split at h
  · rename_i ha
    simp only [Shape.inner, List.mem_singleton] at h
    exact h ▸ length_of_arrayItem? ha
  split at h
  · rename_i hg
    simp only [Shape.inner, List.mem_singleton] at h
    exact h ▸ length_of_enclosed? hg
  split at h
  · rename_i ht
    exact Nat.lt_of_le_of_lt (length_of_mem_listItems h) (length_of_enclosed? ht)
  split at h
  · rename_i hg
    have hl := length_of_generic? hg
    rcases List.mem_cons.mp h with rfl | h
    · exact hl.1
    · exact Nat.lt_of_le_of_lt (length_of_mem_listItems h) hl.2
  split at h
  · simp [Shape.inner] at h
  split at h <;> simp [Shape.inner] at h

/-- The type expressions inside a shape are shorter than its text. -/
theorem length_of_mem_inner {text part : List Char} (h : part ∈ (Shape.of text).inner) :
    part.length < text.length := by
  unfold Shape.of at h
  split at h
  · simp [Shape.inner] at h
  split at h
  · rename_i hm
    obtain ⟨p, hp, rfl⟩ := List.mem_map.mp h
    exact length_lt_of_mem_split hp hm
  split at h
  · simp [Shape.inner] at h
  split at h
  · simp [Shape.inner] at h
  exact length_of_mem_inner_ofSingle h

/-! ## Renaming -/

/-- A name at the start of a text, after blanks: the blanks, the name and the
rest. -/
def leadingName? (text : List Char) : Option (List Char × List Char × List Char) :=
  let blanks := text.takeWhile Text.isBlank
  match text.dropWhile Text.isBlank with
  | [] => none
  | c :: rest =>
    if isNameStart c then
      some (blanks, c :: rest.takeWhile isNamePart, rest.dropWhile isNamePart)
    else none

theorem length_of_leadingName? {text blanks name rest : List Char}
    (h : leadingName? text = some (blanks, name, rest)) : rest.length < text.length := by
  simp only [leadingName?] at h
  split at h
  · cases h
  · rename_i c more hd
    have h1 := Text.length_dropWhile_le Text.isBlank text
    rw [hd] at h1
    have h2 := Text.length_dropWhile_le isNamePart more
    split at h
    · cases h
      simp only [List.length_cons] at h1
      omega
    · cases h

/-- Renames the names right after the colons of an object type. A colon inside a
string literal is none. -/
def renameMembers (rename : List Char → List Char) (quotes : Quotes) (text : List Char) :
    List Char :=
  match text with
  | [] => []
  | c :: rest =>
    if c = ':' then
      match h : leadingName? rest with
      | none => c :: renameMembers rename (quotes.step c) rest
      | some (blanks, name, after) =>
        have := length_of_leadingName? h
        (if quotes.covers c then c :: blanks ++ name else ':' :: ' ' :: rename name) ++
          renameMembers rename (quotes.step c) after
    else c :: renameMembers rename (quotes.step c) rest
termination_by text.length

/-- The members of a union or an intersection with spaces around the marks; none
before a mark with nothing in front of it. -/
def joinMembers (started : Bool) : List (List Char × Option Char) → List Char
  | [] => []
  | (text, none) :: rest => text ++ joinMembers (started || !text.isEmpty) rest
  | (text, some mark) :: rest =>
    text ++ (if started || !text.isEmpty then [' '] else []) ++ mark :: ' ' :: joinMembers true rest

/-- Renames the names at the places that the shape of a type gives away. -/
def qualify (scope : Scope) (text : List Char) : List Char :=
  match h : Shape.of (Text.trim text) with
  | .fixed => Text.trim text
  | .members pieces =>
    joinMembers false (pieces.attach.map fun ⟨p, hp⟩ =>
      have : p.text ∈ (Shape.of (Text.trim text)).inner := by
        rw [h]; exact List.mem_map_of_mem hp
      (qualify scope p.text, p.after))
  | .object => renameMembers scope.qualifyName {} (Text.trim text)
  | .array item =>
    have : item ∈ (Shape.of (Text.trim text)).inner := by rw [h]; exact List.mem_singleton_self _
    qualify scope item ++ ['[', ']']
  | .group inner =>
    have : inner ∈ (Shape.of (Text.trim text)).inner := by rw [h]; exact List.mem_singleton_self _
    '(' :: qualify scope inner ++ [')']
  | .tuple items =>
    '[' :: [',', ' '].intercalate (items.attach.map fun ⟨item, hi⟩ =>
      have : item ∈ (Shape.of (Text.trim text)).inner := by rw [h]; exact hi
      qualify scope item) ++ [']']
  | .generic base arguments =>
    have : base ∈ (Shape.of (Text.trim text)).inner := by rw [h]; exact List.mem_cons_self
    qualify scope base ++ '<' :: [',', ' '].intercalate (arguments.attach.map fun ⟨item, hi⟩ =>
      have : item ∈ (Shape.of (Text.trim text)).inner := by
        rw [h]; exact List.mem_cons_of_mem _ hi
      qualify scope item) ++ ['>']
  | .path first rest => scope.qualifyName first ++ rest
  | .name => scope.qualifyName (Text.trim text)
termination_by text.length
decreasing_by
  all_goals exact Nat.lt_of_lt_of_le (length_of_mem_inner (by assumption)) (Text.length_trim_le _)

end ElementWrappers.TypeExpr
