import ElementWrappers.Text.Blank

/-!
# Normal type expressions

The text of a type expression on one line: no line breaks, no runs of blanks,
one space after a comma.
-/

namespace ElementWrappers.TypeExpr

/-- Each line break becomes a space. -/
def joinLines : List Char → List Char
  | '\r' :: '\n' :: rest => ' ' :: joinLines rest
  | '\n' :: rest => ' ' :: joinLines rest
  | c :: rest => c :: joinLines rest
  | [] => []

/-- Each run of two or more blanks becomes a space. -/
def collapse (text : List Char) : List Char :=
  match text with
  | [] => []
  | [c] => [c]
  | c :: d :: rest =>
    if Text.isBlank c && Text.isBlank d then
      have := Text.length_dropWhile_le Text.isBlank rest
      ' ' :: collapse (rest.dropWhile Text.isBlank)
    else c :: collapse (d :: rest)
termination_by text.length

/-- The blanks after a comma become a space. -/
def spaceCommas (text : List Char) : List Char :=
  match text with
  | [] => []
  | c :: rest =>
    if c = ',' then
      have := Text.length_dropWhile_le Text.isBlank rest
      ',' :: ' ' :: spaceCommas (rest.dropWhile Text.isBlank)
    else c :: spaceCommas rest
termination_by text.length

section Collapse

variable {c d : Char} {rest : List Char}

theorem collapse_nil : collapse [] = [] := by rw [collapse.eq_def]

theorem collapse_singleton : collapse [c] = [c] := by rw [collapse.eq_def]

theorem collapse_run (h : (Text.isBlank c && Text.isBlank d) = true) :
    collapse (c :: d :: rest) = ' ' :: collapse (rest.dropWhile Text.isBlank) := by
  rw [collapse.eq_def]
  simp only
  rw [if_pos h]

theorem collapse_pair (h : ¬ (Text.isBlank c && Text.isBlank d) = true) :
    collapse (c :: d :: rest) = c :: collapse (d :: rest) := by
  rw [collapse.eq_def]
  simp only
  rw [if_neg h]

end Collapse

def normalize (text : List Char) : List Char :=
  Text.trim (spaceCommas (collapse (joinLines text)))

end ElementWrappers.TypeExpr
