import ElementWrappers.Proofs.Spacing
import ElementWrappers.Proofs.Nesting

/-!
# Shapes of printed types

What the classifier says of each kind of printed type that is no union: its own
form with the printed parts, or that there is nothing to rename.
-/

namespace ElementWrappers.TypeExpr

/-! ## Texts joined by separators -/

/-- A text and further ones, each after `pad`, its separator and a space. -/
def joined (pad x : List Char) (rest : List (Char × List Char)) : List Char :=
  x ++ rest.flatMap fun r => pad ++ r.1 :: ' ' :: r.2

/-- The parts of a joined text with the blanks beside the separators. -/
def joinedPieces (pad x : List Char) : List (Char × List Char) → List Piece
  | [] => [⟨x, none⟩]
  | r :: rest => ⟨x ++ pad, some r.1⟩ :: joinedPieces pad (' ' :: r.2) rest

theorem joined_cons (pad x : List Char) (r : Char × List Char) (rest : List (Char × List Char)) :
    joined pad x (r :: rest) = (x ++ pad) ++ r.1 :: joined pad (' ' :: r.2) rest := by
  simp [joined]

theorem length_joinedPieces (pad x : List Char) (rest : List (Char × List Char)) :
    (joinedPieces pad x rest).length = rest.length + 1 := by
  induction rest generalizing x with
  | nil => rfl
  | cons r rest ih => rw [joinedPieces, List.length_cons, ih, List.length_cons]

theorem commas_cons (x : List Char) (xs : List (List Char)) :
    commas (x :: xs) = joined [] x (xs.map fun y => (',', y)) := by
  induction xs generalizing x with
  | nil => simp [commas, joined]
  | cons y xs ih =>
    have hy := ih y
    simp only [commas] at hy ⊢
    rw [List.intercalate_cons_cons, hy]
    simp [joined]

/-- A separator outside brackets ends a piece. -/
theorem splitFrom_cut {cuts : List Char} {previous : Option Char} {c : Char} (hc : c ∈ cuts)
    (hm : cuts ⊆ separators) (rest : List Char) :
    splitFrom cuts (.outside previous 0) (c :: rest) =
      ⟨[], some c⟩ :: splitFrom cuts (.outside (some c) 0) rest := by
  have hall : ∀ d ∈ separators, isQuote d = false ∧ ∀ p, bracketShift p d = 0 := by
    intro d hd
    simp only [separators, List.mem_cons, List.not_mem_nil, or_false] at hd
    rcases hd with rfl | rfl | rfl <;> exact ⟨rfl, fun _ => rfl⟩
  obtain ⟨hq, hshift⟩ := hall c (hm hc)
  have hcuts : (Scan.outside previous 0).cuts cuts c = true := by
    simp [Scan.cuts, Scan.outside, Quotes.covers, hq, hc]
  have hstep : (Scan.outside previous 0).step c = .outside (some c) 0 := by
    simp [Scan.step, Scan.outside, Quotes.step, Quotes.covers, hq, hshift]
  rw [splitFrom, hcuts, if_pos rfl, hstep]

/-- Joined texts are split where they were joined. -/
theorem splitFrom_joined {cuts pad : List Char} (hm : cuts ⊆ separators) (hpad : Nested cuts pad)
    {rest : List (Char × List Char)} (hrest : ∀ r ∈ rest, r.1 ∈ cuts ∧ Nested cuts r.2)
    {x : List Char} (hx : Nested cuts x) {previous : Option Char} (hp : previous ≠ some '=') :
    splitFrom cuts (.outside previous 0) (joined pad x rest) = joinedPieces pad x rest := by
  induction rest generalizing x previous with
  | nil =>
    obtain ⟨last, -, he⟩ := hx.splitFrom_append hm hp (Int.le_refl 0) fun _ => List.Subset.refl cuts
    have h := he []
    rw [splitFrom, prepend_cons] at h
    simpa [joined, joinedPieces] using h
  | cons r rest ih =>
    obtain ⟨hr, hnested⟩ := hrest r List.mem_cons_self
    obtain ⟨last, -, he⟩ := (hx.append hpad).splitFrom_append hm hp (Int.le_refl 0)
      fun _ => List.Subset.refl cuts
    have hsep : ∀ d ∈ separators, d ≠ '=' ∧ d ≠ ' ' := by
      intro d hd
      simp only [separators, List.mem_cons, List.not_mem_nil, or_false] at hd
      rcases hd with rfl | rfl | rfl <;> exact ⟨by decide, by decide⟩
    have hblank : ' ' ∉ cuts := fun h => (hsep ' ' (hm h)).2 rfl
    have hnext := ih (fun q hq => hrest q (List.mem_cons_of_mem _ hq))
      (Nested.plain (by decide) hblank hnested)
      (show some r.1 ≠ some '=' by simpa using (hsep r.1 (hm hr)).1)
    rw [joined_cons, he, splitFrom_cut hr hm, hnext, prepend_cons, List.append_nil, joinedPieces]

theorem split_joined {cuts pad : List Char} (hm : cuts ⊆ separators) (hpad : Nested cuts pad)
    {rest : List (Char × List Char)} (hrest : ∀ r ∈ rest, r.1 ∈ cuts ∧ Nested cuts r.2)
    {x : List Char} (hx : Nested cuts x) :
    split cuts (joined pad x rest) = joinedPieces pad x rest :=
  splitFrom_joined hm hpad hrest hx (show none ≠ some '=' by decide)

/-- The items of a printed list, with the blanks after the commas. -/
theorem listItems_commas {x : List Char} {xs : List (List Char)}
    (h : ∀ y ∈ x :: xs, Nested [','] y) :
    listItems (commas (x :: xs)) =
      (joinedPieces [] x (xs.map fun y => (',', y))).map Piece.text := by
  rw [listItems, commas_cons, split_joined (by decide) .nil _ (h x List.mem_cons_self)]
  intro r hr
  obtain ⟨y, hy, rfl⟩ := List.mem_map.mp hr
  exact ⟨List.mem_cons_self, h y (List.mem_cons_of_mem _ hy)⟩

/-! ## Single types -/

namespace Shape

variable {text : List Char}

/-- A text without marks of its own is kept, an object, or classified further. -/
theorem of_cases (hn : Nested separators text) :
    Shape.of text = .fixed ∨ (hasArrow 0 none text = false ∧
      Shape.of text = if text.head? == some '\x7b' && text.getLast? == some '\x7d' then .object
        else ofSingle text) := by
  have hsub : ['|', '&'] ⊆ separators := by decide
  have hone : ¬ 2 ≤ (split ['|', '&'] text).length := by
    have hnone : ∀ r ∈ ([] : List (Char × List Char)), r.1 ∈ ['|', '&'] ∧ Nested ['|', '&'] r.2 :=
      fun _ hr => absurd hr List.not_mem_nil
    have h := split_joined hsub .nil hnone (hn.mono hsub)
    rw [joined, List.flatMap_nil, List.append_nil] at h
    rw [h, length_joinedPieces]
    simp
  unfold Shape.of
  by_cases hfixed : (text.isEmpty || isBuiltIn (String.ofList text) || isLiteral text) = true
  · rw [if_pos hfixed]
    exact .inl rfl
  · rw [if_neg hfixed, if_neg hone]
    cases harrow : hasArrow 0 none text with
    | true => exact .inl rfl
    | false => exact .inr ⟨rfl, rfl⟩

theorem of_single (hn : Nested separators text) (hh : text.head? ≠ some '\x7b') :
    Shape.of text = .fixed ∨ Shape.of text = ofSingle text := by
  rcases of_cases hn with h | ⟨-, h⟩
  · exact .inl h
  · refine .inr ?_
    rw [h, if_neg]
    simp [hh]

theorem arrayItem?_eq_none {c : Char} (hc : c ≠ ']') (u : List Char) :
    arrayItem? (u ++ [c]) = none := by
  rw [arrayItem?, if_neg]
  intro h
  obtain ⟨v, hv⟩ := List.isSuffixOf_iff_suffix.mp h
  have hl := congrArg List.getLast? hv
  simp at hl
  exact hc hl.symm

theorem arrayItem?_brackets (u : List Char) : arrayItem? (u ++ ['[', ']']) = some u := by
  rw [arrayItem?, if_pos (List.isSuffixOf_iff_suffix.mpr (List.suffix_append u _))]
  simp

theorem enclosed?_eq_none {o c d : Char} (h : d ≠ o) (rest : List Char) :
    enclosed? o c (d :: rest) = none := by
  rw [enclosed?, if_neg]
  simp [h]

theorem generic?_eq_none (h : '<' ∉ text) : generic? text = none := by
  have hdrop : text.dropWhile (· != '<') = [] := by
    rw [List.dropWhile_eq_nil_iff]
    intro c hc
    have : c ≠ '<' := by
      rintro rfl
      exact h hc
    simpa using this
  rw [generic?, hdrop]

/-! ## Each kind of type -/

theorem not_mem_path {d : Char} (hd : d ∈ breaks) (hdot : d ≠ '.') (first : Name)
    (tail : List Name) : d ∉ first.chars ++ dotted tail := by
  intro h
  have hword : ∀ x : Name, d ∉ x.chars := fun x hx =>
    ne_of_isIdentifierChar (x.isWord.chars d hx) hd rfl
  rcases List.mem_append.mp h with h | h
  · exact hword first h
  · simp only [dotted, List.mem_flatMap, List.mem_cons] at h
    obtain ⟨x, -, rfl | h⟩ := h
    · exact hdot rfl
    · exact hword x h

/-- A name begins with none of the characters that end words. -/
theorem head_ne {d : Char} (hd : d ∈ breaks) (x : Name) (rest : List Char) :
    ∃ c u, x.chars ++ rest = c :: u ∧ c ≠ d := by
  obtain ⟨c, u, he, -⟩ := x.eq_cons
  refine ⟨c, u ++ rest, by rw [he]; rfl, ?_⟩
  exact ne_of_isIdentifierChar (x.isWord.chars c (by rw [he]; exact List.mem_cons_self)) hd

theorem enclosed?_name {o c : Char} (ho : o ∈ breaks) (x : Name) (rest : List Char) :
    enclosed? o c (x.chars ++ rest) = none := by
  obtain ⟨d, u, he, hne⟩ := head_ne ho x rest
  rw [he]
  exact enclosed?_eq_none hne u

theorem head?_name (x : Name) (rest : List Char) :
    (x.chars ++ rest).head? ≠ some '\x7b' := by
  obtain ⟨d, u, he, hne⟩ := head_ne (show '\x7b' ∈ breaks by decide) x rest
  rw [he]
  simpa using hne

theorem splitOn_path (first : Name) (tail : List Name) :
    (first.chars ++ dotted tail).splitOn '.' = first.chars :: tail.map Name.chars := by
  have hjoin : first.chars ++ dotted tail = ['.'].intercalate (first.chars :: tail.map Name.chars) := by
    induction tail generalizing first with
    | nil => simp [dotted]
    | cons x rest ih =>
      have hx := ih x
      rw [List.map_cons, List.intercalate_cons_cons, ← hx]
      simp [dotted]
  rw [hjoin, List.splitOn_intercalate]
  · intro w hw hdot
    have hx : ∃ x : Name, x.chars = w := by
      rcases List.mem_cons.mp hw with rfl | hw
      · exact ⟨first, rfl⟩
      · obtain ⟨x, -, rfl⟩ := List.mem_map.mp hw
        exact ⟨x, rfl⟩
    obtain ⟨x, rfl⟩ := hx
    exact ne_of_isIdentifierChar (x.isWord.chars _ hdot) (show '.' ∈ breaks by decide) rfl
  · exact List.cons_ne_nil _ _

theorem path?_path (first : Name) (tail : List Name) :
    path? (first.chars ++ dotted tail) =
      match tail with
      | [] => none
      | _ :: _ => some (first.chars, dotted tail) := by
  have hall : ∀ xs : List Name, (xs.map Name.chars).all isName = true := by
    intro xs
    rw [List.all_eq_true]
    intro w hw
    obtain ⟨x, -, rfl⟩ := List.mem_map.mp hw
    exact x.isName_chars
  rw [path?, splitOn_path]
  cases tail with
  | nil => rfl
  | cons x rest =>
    have h := hall (first :: x :: rest)
    simp only [List.map_cons] at h ⊢
    rw [if_pos h, List.drop_left]

theorem arrayItem?_path (first : Name) (tail : List Name) :
    arrayItem? (first.chars ++ dotted tail) = none := by
  rw [arrayItem?, if_neg]
  intro h
  obtain ⟨v, hv⟩ := List.isSuffixOf_iff_suffix.mp h
  exact not_mem_path (show ']' ∈ breaks by decide) (by decide) first tail (by rw [← hv]; simp)

theorem of_path (first : Name) (tail : List Name) :
    Shape.of (first.chars ++ dotted tail) = .fixed ∨
      Shape.of (first.chars ++ dotted tail) =
        match tail with
        | [] => .name
        | _ :: _ => .path first.chars (dotted tail) := by
  rcases of_single (nested_path first tail) (head?_name first _) with h | h
  · exact .inl h
  · refine .inr ?_
    have hgeneric : '<' ∉ first.chars ++ dotted tail := not_mem_path (by decide) (by decide) first tail
    rw [h, ofSingle, arrayItem?_path, enclosed?_name (by decide), enclosed?_name (by decide),
      generic?_eq_none hgeneric, path?_path]
    cases tail with
    | nil => simp [dotted, first.isName_chars]
    | cons x rest => rfl

theorem of_generic (first : Name) (tail : List Name) {arguments : List Char}
    (ha : Nested [] arguments) :
    Shape.of (first.chars ++ (dotted tail ++ '<' :: (arguments ++ ['>']))) = .fixed ∨
      Shape.of (first.chars ++ (dotted tail ++ '<' :: (arguments ++ ['>']))) =
        .generic (first.chars ++ dotted tail) (listItems arguments) := by
  have hb : ('<', '>') ∈ brackets := by decide
  have hn : Nested separators (first.chars ++ (dotted tail ++ '<' :: (arguments ++ ['>']))) := by
    rw [← List.append_assoc]
    exact (nested_path first tail).append (.bracket hb ha .nil)
  rcases of_single hn (head?_name first _) with h | h
  · exact .inl h
  · refine .inr ?_
    have harray : arrayItem? (first.chars ++ (dotted tail ++ '<' :: (arguments ++ ['>']))) = none := by
      have hlast : first.chars ++ (dotted tail ++ '<' :: (arguments ++ ['>'])) =
          (first.chars ++ (dotted tail ++ '<' :: arguments)) ++ ['>'] := by simp
      rw [hlast]
      exact arrayItem?_eq_none (by decide) _
    have hbase : ∀ c ∈ first.chars ++ dotted tail, (c != '<') = true := by
      intro c hc
      have hne : c ≠ '<' := by
        rintro rfl
        exact not_mem_path (by decide) (by decide) first tail hc
      simpa using hne
    have hgeneric : generic? (first.chars ++ (dotted tail ++ '<' :: (arguments ++ ['>']))) =
        some (first.chars ++ dotted tail, arguments) := by
      rw [← List.append_assoc, generic?, List.dropWhile_append_of_pos hbase,
        List.takeWhile_append_of_pos hbase, List.dropWhile_cons_of_neg (by decide),
        List.takeWhile_cons_of_neg (by decide)]
      simp only
      rw [if_pos (ha.closesAtEnd_eq_true hb), List.append_nil, List.dropLast_concat]
    rw [h, ofSingle, harray, enclosed?_name (by decide), enclosed?_name (by decide), hgeneric]

theorem of_array {u : List Char} (hn : Nested separators u) :
    Shape.of (u ++ ['[', ']']) = .fixed ∨ Shape.of (u ++ ['[', ']']) = .array u := by
  have hn' : Nested separators (u ++ ['[', ']']) := hn.append (.bracket (by decide) .nil .nil)
  rcases of_cases hn' with h | ⟨-, h⟩
  · exact .inl h
  · refine .inr ?_
    rw [h, if_neg, ofSingle, arrayItem?_brackets]
    simp

theorem of_group {inner : List Char} (hn : Nested [] inner) :
    Shape.of ('(' :: (inner ++ [')'])) = .fixed ∨
      Shape.of ('(' :: (inner ++ [')'])) = .group inner := by
  have hb : ('(', ')') ∈ brackets := by decide
  rcases of_single (.bracket hb hn .nil) (by simp) with h | h
  · exact .inl h
  · refine .inr ?_
    have harray : arrayItem? ('(' :: (inner ++ [')'])) = none :=
      arrayItem?_eq_none (by decide) ('(' :: inner)
    rw [h, ofSingle, harray, hn.enclosed?_eq_some hb]

theorem of_tuple {items : List Char} (hn : Nested [] items) (hne : items ≠ []) :
    Shape.of ('[' :: (items ++ [']'])) = .fixed ∨
      Shape.of ('[' :: (items ++ [']'])) = .tuple (listItems items) := by
  have hb : ('[', ']') ∈ brackets := by decide
  rcases of_single (.bracket hb hn .nil) (by simp) with h | h
  · exact .inl h
  · refine .inr ?_
    have harray : arrayItem? ('[' :: (items ++ [']'])) = none := by
      rw [arrayItem?, if_neg]
      intro hs
      obtain ⟨v, hv⟩ := List.isSuffixOf_iff_suffix.mp hs
      have hdrop := congrArg List.dropLast hv
      have hl := congrArg List.getLast? hdrop
      have h1 : (v ++ ['[', ']']).dropLast = v ++ ['['] := by simp
      have h2 : ('[' :: (items ++ [']'])).dropLast = '[' :: items := by
        rw [← List.cons_append, List.dropLast_concat]
      rw [h1, h2, List.getLast?_concat, List.getLast?_cons] at hl
      cases hi : items.getLast? with
      | none => exact hne (List.getLast?_eq_none_iff.mp hi)
      | some c =>
        rw [hi, Option.getD_some] at hl
        exact hn.getLast?_ne (by rw [hi, hl])
    rw [h, ofSingle, harray, enclosed?_eq_none (by decide), hn.enclosed?_eq_some hb]

theorem of_literal (rest : List Char) : Shape.of ('\'' :: rest) = .fixed := by
  unfold Shape.of
  rw [if_pos]
  simp [isLiteral, isQuote]

theorem of_object (hn : Nested separators text) (hh : text.head? = some '\x7b')
    (hl : text.getLast? = some '\x7d') : Shape.of text = .fixed ∨ Shape.of text = .object := by
  rcases of_cases hn with h | ⟨-, h⟩
  · exact .inl h
  · refine .inr ?_
    rw [h, if_pos]
    simp [hh, hl]

/-- A function type is kept as it is. -/
theorem of_function {parameters result : List Char} (hp : Nested separators parameters)
    (hr : Nested separators result) :
    Shape.of (parameters ++ ([' ', '=', '>', ' '] ++ result)) = .fixed := by
  have harrow : Nested separators [' ', '=', '>', ' '] :=
    .plain (by decide) (by decide) (.arrow (.plain (by decide) (by decide) .nil))
  have hfound : hasArrow 0 none (parameters ++ ([' ', '=', '>', ' '] ++ result)) = true := by
    refine hp.hasArrow_append (fun last _ => ?_) (by decide)
    simp [hasArrow, bracketShift]
  rcases of_cases (hp.append (harrow.append hr)) with h | ⟨h, -⟩
  · exact h
  · rw [hfound] at h
    cases h

end Shape

end ElementWrappers.TypeExpr
