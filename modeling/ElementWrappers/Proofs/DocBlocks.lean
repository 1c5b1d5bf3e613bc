import Mathlib
import ElementWrappers.Component.DocComment
import ElementWrappers.Proofs.TextLines

/-!
# Comment blocks

The comment block of a documentation is framed line by line, but its tags go to
the last line as they are, and nothing keeps its end mark out of its text. So it
is a block that ends at its end exactly when no part of the documentation has the
end mark, and no tag has a line of its own that is not marked already:
`isBlock_comment_iff`.
-/

namespace ElementWrappers

namespace Text

variable {x y : List Char} {c : Char}

/-- The text has the end mark of a comment. -/
def Closes (text : List Char) : Prop := ['*', '/'] <:+: text

instance (text : List Char) : Decidable (Closes text) :=
  inferInstanceAs (Decidable (_ <:+: _))

theorem not_closes_nil : ¬ Closes [] := by decide

/-- Where two texts meet, an end mark is made only of an asterisk and a slash. -/
theorem closes_append_iff : Closes (x ++ y) ↔
    Closes x ∨ Closes y ∨ (['*'] <:+ x ∧ ['/'] <+: y) := by
  have hcut : (∃ l r, l ≠ [] ∧ r ≠ [] ∧ ['*', '/'] = l ++ r ∧ l <:+ x ∧ r <+: y) ↔
      ['*'] <:+ x ∧ ['/'] <+: y := by
    constructor
    · rintro ⟨l, r, hl, hr, he, hs, hp⟩
      obtain ⟨c, l, rfl⟩ := List.exists_cons_of_ne_nil hl
      rw [List.cons_append] at he
      obtain ⟨rfl, hrest⟩ := List.cons.inj he
      cases l with
      | nil =>
        rw [List.nil_append] at hrest
        exact ⟨hs, hrest ▸ hp⟩
      | cons d l =>
        rw [List.cons_append] at hrest
        exact absurd (List.append_eq_nil_iff.mp (List.cons.inj hrest).2.symm).2 hr
    · exact fun ⟨hs, hp⟩ => ⟨['*'], ['/'], by decide, by decide, rfl, hs, hp⟩
  rw [Closes, List.infix_append_iff_ne_nil, hcut]
  rfl

theorem closes_append_left_iff (hx : '*' ∉ x) : Closes (x ++ y) ↔ Closes y := by
  rw [closes_append_iff]
  constructor
  · rintro (h | h | ⟨h, -⟩)
    · exact absurd (h.subset List.mem_cons_self) hx
    · exact h
    · exact absurd (h.subset List.mem_cons_self) hx
  · exact fun h => .inr (.inl h)

theorem closes_append_right_iff (hy : '/' ∉ y) : Closes (x ++ y) ↔ Closes x := by
  have hslash : '/' ∈ ['*', '/'] := List.mem_cons_of_mem _ List.mem_cons_self
  rw [closes_append_iff]
  constructor
  · rintro (h | h | ⟨-, h⟩)
    · exact h
    · exact absurd (h.subset hslash) hy
    · exact absurd (h.subset List.mem_cons_self) hy
  · exact .inl

theorem closes_append_cons_iff (hc : c ≠ '*') (hc' : c ≠ '/') (x y : List Char) :
    Closes (x ++ c :: y) ↔ Closes x ∨ Closes y := by
  have hy : Closes (c :: y) ↔ Closes y :=
    closes_append_left_iff fun h => hc (List.mem_singleton.mp h).symm
  rw [closes_append_iff, hy]
  constructor
  · rintro (h | h | ⟨-, h⟩)
    · exact .inl h
    · exact .inr h
    · exact absurd (List.cons_prefix_cons.mp h).1.symm hc'
  · rintro (h | h)
    · exact .inl h
    · exact .inr (.inl h)

/-- No end mark goes over a line break. -/
theorem closes_intercalate_iff (parts : List (List Char)) :
    Closes (['\n'].intercalate parts) ↔ ∃ part ∈ parts, Closes part := by
  induction parts with
  | nil => exact iff_of_false not_closes_nil fun ⟨_, h, _⟩ => by cases h
  | cons first rest ih =>
    cases rest with
    | nil => simp
    | cons next rest =>
      rw [List.intercalate_cons_cons, List.append_assoc, List.singleton_append,
        closes_append_cons_iff (by decide) (by decide), ih]
      exact (List.exists_mem_cons_iff _ _ _).symm

/-- The pieces between line feeds have the end marks of a text. -/
theorem exists_closes_splitOn_iff (x : List Char) :
    (∃ piece ∈ x.splitOn '\n', Closes piece) ↔ Closes x := by
  rw [← closes_intercalate_iff, List.intercalate_splitOn]

theorem not_closes_of_mem_linesOf {text line : String} (h : ¬ Closes text.toList)
    (hl : line ∈ linesOf text) : ¬ Closes line.toList := by
  obtain ⟨piece, hp, rfl⟩ := List.mem_map.mp hl
  rw [String.toList_ofList]
  exact fun hc => h ((exists_closes_splitOn_iff text.toList).mp ⟨piece, hp, hc⟩)

theorem closes_trimEnd_iff (x : List Char) : Closes (trimEnd x) ↔ Closes x := by
  obtain ⟨b, hb, he⟩ := exists_trimEnd_append x
  have hslash : '/' ∉ b := fun h => absurd (hb _ h) (by decide)
  conv_rhs => rw [he]
  exact (closes_append_right_iff hslash).symm

theorem closes_trim_iff (x : List Char) : Closes (trim x) ↔ Closes x := by
  obtain ⟨gap, gap', hg, hg', he⟩ := exists_trim_append x
  have hstar : '*' ∉ gap := fun h => absurd (hg _ h) (by decide)
  have hslash : '/' ∉ gap' := fun h => absurd (hg' _ h) (by decide)
  conv_rhs => rw [he]
  rw [closes_append_left_iff hstar, closes_append_right_iff hslash]

/-- A text with an end mark behind it has no other one exactly if it has none of
its own. -/
theorem ended_iff {text : String} (ht : text.toList = x ++ ['*', '/']) :
    (∀ before after, text = before ++ "*/" ++ after → after = "") ↔ ¬ Closes x := by
  constructor
  · rintro h ⟨before, more, rfl⟩
    have hnil := h (String.ofList before) (String.ofList (more ++ ['*', '/']))
      (String.toList_injective (by simp [ht]))
    simpa using congrArg String.toList hnil
  · intro hx before after he
    have he : x ++ ['*', '/'] = before.toList ++ ['*', '/'] ++ after.toList := by
      rw [← ht, he]
      simp
    rcases List.eq_nil_or_concat after.toList with ha | ⟨more, d, ha⟩
    · exact String.toList_injective ha
    have he : (x ++ ['*']) ++ ['/'] = (before.toList ++ ['*', '/'] ++ more) ++ [d] := by
      simpa [ha] using he
    obtain ⟨he, -⟩ := List.append_inj' he rfl
    rcases List.eq_nil_or_concat more with rfl | ⟨more, d, rfl⟩
    · have he : x ++ ['*'] = (before.toList ++ ['*']) ++ ['/'] := by simpa using he
      exact absurd (List.append_inj' he rfl).2 (by decide)
    · have he : x ++ ['*'] = (before.toList ++ ['*', '/'] ++ more) ++ [d] := by simpa using he
      exact absurd ⟨before.toList, more, (List.append_inj' he rfl).1.symm⟩ hx

/-- The lines of a text have its end marks. -/
theorem exists_closes_lines_iff (x : List Char) : (∃ line ∈ lines x, Closes line) ↔ Closes x := by
  rw [← closes_trim_iff x, lines]
  split
  · rename_i h
    rw [h]
    exact iff_of_false (fun ⟨_, hl, _⟩ => by cases hl) not_closes_nil
  · rename_i c rest h
    rw [h, ← exists_closes_splitOn_iff (c :: rest)]
    simp only [List.mem_map, exists_exists_and_eq_and, closes_trimEnd_iff]

theorem not_mem_of_mem_lines {line : List Char} (h : line ∈ lines x) : '\n' ∉ line := by
  unfold lines at h
  split at h
  · cases h
  · obtain ⟨piece, hp, rfl⟩ := List.mem_map.mp h
    obtain ⟨b, -, he⟩ := exists_trimEnd_append piece
    intro hn
    exact (mem_splitOn hp).1 (he ▸ List.mem_append_left b hn)

end Text

namespace Doc

variable {d : Doc} {indent comment : String}

/-! ## Lines of a documentation -/

theorem exists_written (t : DocTag) : ∃ rest, t.written = "@" ++ rest := by
  unfold DocTag.written
  split
  · exact ⟨_, rfl⟩
  · split
    · exact ⟨_, rfl⟩
    · exact ⟨_, by simp only [String.append_assoc]; rfl⟩

section Parts

variable {P : String → Prop}

theorem forall_appendToLast_iff (words : String) (hP : ∀ a, P (a ++ " " ++ words) ↔ P a ∧ P words)
    (lines : List String) :
    (∀ line ∈ appendToLast words lines, P line) ↔ (∀ line ∈ lines, P line) ∧ P words := by
  induction lines with
  | nil => simp [appendToLast]
  | cons line rest ih =>
    cases rest with
    | nil =>
      rw [appendToLast, List.forall_mem_singleton, List.forall_mem_singleton]
      exact hP line
    | cons next rest =>
      rw [appendToLast, List.forall_mem_cons, ih, List.forall_mem_cons (l := next :: rest),
        and_assoc]
      exact List.cons_ne_nil _ _

/-- A text of tags begins like a tag. -/
theorem exists_tagsText (t : DocTag) (more : List DocTag) :
    ∃ rest, " ".intercalate ((t :: more).map DocTag.written) = "@" ++ rest := by
  obtain ⟨rest, hr⟩ := exists_written t
  exact ⟨_, by rw [List.map_cons, hr, String.intercalate_cons_append]⟩

variable (hP : ∀ a b, P (a ++ " " ++ ("@" ++ b)) ↔ P a ∧ P ("@" ++ b))

include hP

theorem tagsText_iff (t : DocTag) (more : List DocTag) :
    P (" ".intercalate ((t :: more).map DocTag.written)) ↔ ∀ u ∈ t :: more, P u.written := by
  induction more generalizing t with
  | nil => simp
  | cons next more ih =>
    obtain ⟨rest, hr⟩ := exists_tagsText next more
    rw [List.forall_mem_cons, ← ih, List.map_cons,
      String.intercalate_cons_of_ne_nil (by simp), hr]
    exact hP t.written rest

/-- What holds of the lines of a documentation holds of the lines of its text and
of its tags. -/
theorem forall_lines_iff (d : Doc) : (∀ line ∈ d.lines, P line) ↔
    (∀ line ∈ Text.lines d.text.toList, P (String.ofList line)) ∧ ∀ t ∈ d.tags, P t.written := by
  have htext : (∀ line ∈ (Text.lines d.text.toList).map String.ofList, P line) ↔
      ∀ line ∈ Text.lines d.text.toList, P (String.ofList line) := List.forall_mem_map
  rw [← htext]
  unfold lines
  cases htags : d.tags with
  | nil => simp
  | cons t more =>
    obtain ⟨rest, hr⟩ := exists_tagsText t more
    have hne : " ".intercalate ((t :: more).map DocTag.written) ≠ "" := by
      rw [hr]
      simp
    simp only [if_neg hne]
    rw [forall_appendToLast_iff, tagsText_iff hP]
    rw [hr]
    exact fun a => hP a rest

end Parts

/-! ## Blocks -/

/-- A comment block: its first line opens it and its last line ends it, each line
between is marked by an asterisk, and no other place ends it. -/
structure IsBlock (indent comment : String) : Prop where
  framed : ∃ inner, Text.linesOf comment = (indent ++ "/**") :: inner ++ [indent ++ " */"] ∧
    ∀ line ∈ inner, (indent ++ " *").toList <+: line.toList
  ended : ∀ before after, comment = before ++ "*/" ++ after → after = ""

/-- What keeps a documentation inside its block: no end mark, and no line of a tag
that is not marked already. -/
structure FitsBlock (d : Doc) (indent : String) : Prop where
  text : ¬ Text.Closes d.text.toList
  tags : ∀ t ∈ d.tags, ¬ Text.Closes t.name.toList ∧ ∀ text ∈ t.text, ¬ Text.Closes text.toList
  lines : ∀ t ∈ d.tags, ∀ line ∈ (Text.linesOf t.written).tail,
    (indent ++ " *").toList <+: line.toList

theorem exists_comment (h : d.isBlank = false) (indent : String) :
    ∃ comment, d.comment? indent = some comment :=
  ⟨_, if_neg (Bool.eq_false_iff.mp h)⟩

/-- The lines of a comment are its opening, the lines of its comment lines and
its end. -/
theorem linesOf_comment (hi : '\n' ∉ indent.toList) (hc : d.comment? indent = some comment) :
    Text.linesOf comment = (indent ++ "/**") ::
      d.lines.flatMap (fun line => Text.linesOf (commentLine indent line)) ++
        [indent ++ " */"] := by
  unfold comment? at hc
  split at hc
  · cases hc
  · obtain rfl := Option.some.inj hc
    have hopen : '\n' ∉ (indent ++ "/**").toList := by simp [hi]
    have hend : '\n' ∉ (indent ++ " */").toList := by simp [hi]
    rw [Text.linesOf_intercalate (by simp), List.flatMap_append, List.flatMap_cons,
      List.flatMap_singleton, List.flatMap_map, Text.linesOf_single hopen,
      Text.linesOf_single hend]
    rfl

theorem forall_linesOf_commentLine_iff (hi : '\n' ∉ indent.toList) (line : String) :
    (∀ l ∈ Text.linesOf (commentLine indent line), (indent ++ " *").toList <+: l.toList) ↔
      Text.Marked (indent ++ " *").toList line.toList := by
  have hmark : '\n' ∉ (indent ++ " *").toList := by simp [hi]
  rw [Text.forall_linesOf_iff hmark]
  unfold commentLine
  split
  · rename_i he
    subst he
    exact iff_of_true ⟨List.prefix_refl _, Text.marked_of_not_mem hmark⟩
      (Text.marked_of_not_mem List.not_mem_nil)
  · have hl : (indent ++ " * " ++ line).toList = (indent ++ " *").toList ++ ' ' :: line.toList := by
      simp
    rw [hl, Text.marked_append_iff hmark]
    have hspace : '\n' ∉ [' '] := by decide
    rw [and_iff_right (List.prefix_append _ _)]
    exact Text.marked_append_iff hspace

/-- The comment lines are marked if the lines of the tags are. -/
theorem marked_lines_iff (hi : ∀ c ∈ indent.toList, c = ' ') (d : Doc) :
    (∀ line ∈ d.lines, Text.Marked (indent ++ " *").toList line.toList) ↔
      ∀ t ∈ d.tags, Text.Marked (indent ++ " *").toList t.written.toList := by
  have hat : '@' ∉ (indent ++ " *").toList := by
    intro h
    rw [String.toList_append, List.mem_append] at h
    rcases h with h | h
    · exact absurd (hi _ h) (by decide)
    · exact absurd h (by decide)
  have hlast : (indent ++ " *").toList.getLast? ≠ some ' ' := by simp
  have hempty : Text.Marked (indent ++ " *").toList [] := Text.marked_of_not_mem List.not_mem_nil
  rw [forall_lines_iff]
  · refine and_iff_right fun line hl => Text.marked_of_not_mem ?_
    rw [String.toList_ofList]
    exact Text.not_mem_of_mem_lines hl
  · intro a b
    have hl : (a ++ " " ++ ("@" ++ b)).toList = (a.toList ++ [' ']) ++ '@' :: b.toList := by simp
    have hr : ("@" ++ b).toList = [] ++ '@' :: b.toList := by simp
    rw [hl, hr, Text.marked_append_cons_iff hat (by decide),
      Text.marked_append_cons_iff hat (by decide), Text.marked_concat_iff hlast (by decide),
      and_iff_right hempty]

theorem closes_written_iff (t : DocTag) : Text.Closes t.written.toList ↔
    Text.Closes t.name.toList ∨ ∃ text ∈ t.text, Text.Closes text.toList := by
  have hname : Text.Closes ("@" ++ t.name).toList ↔ Text.Closes t.name.toList := by
    rw [String.toList_append]
    exact Text.closes_append_left_iff (by decide)
  have hsome : ∀ text : String, (∃ u ∈ some text, Text.Closes u.toList) ↔ Text.Closes text.toList :=
    fun text => by simp
  unfold DocTag.written
  cases h : t.text with
  | none => exact hname.trans (or_iff_left fun ⟨_, hu, _⟩ => by cases hu).symm
  | some text =>
    rw [hsome]
    dsimp only
    split
    · rename_i he
      subst he
      exact hname.trans (or_iff_left Text.not_closes_nil).symm
    · have hl : ("@" ++ t.name ++ " " ++ text).toList =
          ("@" ++ t.name).toList ++ ' ' :: text.toList := by simp
      rw [hl, Text.closes_append_cons_iff (by decide) (by decide), hname]

/-- The lines have the end marks of the text and of the tags. -/
theorem not_closes_lines_iff (d : Doc) : (∀ line ∈ d.lines, ¬ Text.Closes line.toList) ↔
    ¬ Text.Closes d.text.toList ∧ ∀ t ∈ d.tags, ¬ Text.Closes t.written.toList := by
  rw [forall_lines_iff (P := fun line => ¬ Text.Closes line.toList)]
  · simp only [String.toList_ofList, ← Text.exists_closes_lines_iff d.text.toList, not_exists,
      not_and]
  · intro a b
    have hl : (a ++ " " ++ ("@" ++ b)).toList = a.toList ++ ' ' :: ("@" ++ b).toList := by simp
    rw [hl, Text.closes_append_cons_iff (by decide) (by decide), not_or]

theorem closes_commentLine_iff (hi : '*' ∉ indent.toList) (line : String) :
    Text.Closes (commentLine indent line).toList ↔ Text.Closes line.toList := by
  have hmark : ¬ Text.Closes (indent ++ " *").toList := by
    rw [String.toList_append, Text.closes_append_left_iff hi]
    decide
  unfold commentLine
  split
  · rename_i he
    subst he
    exact iff_of_false hmark Text.not_closes_nil
  · have hl : (indent ++ " * " ++ line).toList = (indent ++ " *").toList ++ ' ' :: line.toList := by
      simp
    rw [hl, Text.closes_append_cons_iff (by decide) (by decide), or_iff_right hmark]

/-- A comment ends at its end only if no line has an end mark. -/
theorem ended_comment_iff (hi : '*' ∉ indent.toList)
    (hc : d.comment? indent = some comment) :
    (∀ before after, comment = before ++ "*/" ++ after → after = "") ↔
      ∀ line ∈ d.lines, ¬ Text.Closes line.toList := by
  unfold comment? at hc
  split at hc
  · cases hc
  obtain rfl := Option.some.inj hc
  have hopen : ¬ Text.Closes (indent ++ "/**").toList := by
    rw [String.toList_append, Text.closes_append_left_iff hi]
    decide
  have hlast : ¬ Text.Closes (indent ++ " ").toList := by
    rw [String.toList_append, Text.closes_append_left_iff hi]
    decide
  -- the part in front of the end mark
  set front := ['\n'].intercalate
    (((indent ++ "/**") :: d.lines.map (commentLine indent)).map String.toList) with hfront
  have hclosed : Text.Closes (front ++ '\n' :: (indent ++ " ").toList) ↔
      ∃ line ∈ d.lines, Text.Closes line.toList := by
    rw [Text.closes_append_cons_iff (by decide) (by decide), or_iff_left hlast, hfront,
      Text.closes_intercalate_iff, List.map_cons, List.exists_mem_cons_iff, or_iff_right hopen]
    simp only [List.mem_map, exists_exists_and_eq_and, closes_commentLine_iff hi]
  rw [Text.ended_iff (x := front ++ '\n' :: (indent ++ " ").toList), hclosed]
  · simp only [not_exists, not_and]
  · rw [String.intercalate_append_of_ne_nil (List.cons_ne_nil _ _) (List.cons_ne_nil _ _),
      String.intercalate_singleton, String.toList_append, String.toList_append,
      String.toList_intercalate]
    simp [hfront]

/-- A documentation makes a block exactly if it fits into one. -/
theorem isBlock_comment_iff (hi : ∀ c ∈ indent.toList, c = ' ')
    (hc : d.comment? indent = some comment) : IsBlock indent comment ↔ d.FitsBlock indent := by
  have hfree : ∀ {c : Char}, c ≠ ' ' → c ∉ indent.toList := fun hc h => hc (hi _ h)
  have hn := hfree (c := '\n') (by decide)
  have hmark : '\n' ∉ (indent ++ " *").toList := by simp [hn]
  have hlines := linesOf_comment hn hc
  have hframed : (∀ line ∈ d.lines.flatMap fun line => Text.linesOf (commentLine indent line),
        (indent ++ " *").toList <+: line.toList) ↔
      ∀ t ∈ d.tags, ∀ line ∈ (Text.linesOf t.written).tail,
        (indent ++ " *").toList <+: line.toList := by
    rw [List.forall_mem_flatMap]
    simp only [forall_linesOf_commentLine_iff hn, ← Text.marked_iff_linesOf hmark]
    exact marked_lines_iff hi d
  have hended := ended_comment_iff (hfree (c := '*') (by decide)) hc
  rw [not_closes_lines_iff] at hended
  simp only [closes_written_iff, not_or, not_exists, not_and] at hended
  constructor
  · rintro ⟨⟨inner, he, hinner⟩, hend⟩
    obtain ⟨htext, htags⟩ := hended.mp hend
    have hsame := (List.append_inj' (hlines.symm.trans he) rfl).1
    rw [← (List.cons.inj hsame).2] at hinner
    exact ⟨htext, htags, hframed.mp hinner⟩
  · rintro ⟨htext, htags, hcont⟩
    exact ⟨⟨_, hlines, hframed.mpr hcont⟩, hended.mpr ⟨htext, htags⟩⟩

/-- A documentation with two paragraphs and two tags, one of them with lines. -/
def toneDoc : Doc where
  text := "The tone of a button.\n\nMatches src/** and nothing else."
  tags := [⟨"deprecated", some "use color"⟩, ⟨"example", some "tone\n   * color"⟩]

theorem isBlock_comment_iff_tone :
    (∀ c ∈ "  ".toList, c = ' ') ∧ ∃ comment, toneDoc.comment? "  " = some comment ∧
      (IsBlock "  " comment ↔ toneDoc.FitsBlock "  ") ∧ IsBlock "  " comment := by
  have hi : ∀ c ∈ "  ".toList, c = ' ' := by simp
  obtain ⟨comment, hc⟩ := exists_comment (d := toneDoc) (by decide +kernel) "  "
  have hiff := isBlock_comment_iff hi hc
  exact ⟨hi, comment, hc, hiff, hiff.mpr ⟨by decide +kernel, by decide +kernel, by decide +kernel⟩⟩

/-- A pattern of paths ends the comment that it stands in. -/
def patternDoc : Doc where
  text := "Matches src/**/*.ts only."

theorem not_isBlock_pattern : ¬ ∀ (d : Doc) (indent comment : String),
    (∀ c ∈ indent.toList, c = ' ') → d.comment? indent = some comment →
      IsBlock indent comment := by
  intro h
  obtain ⟨comment, hc⟩ := exists_comment (d := patternDoc) (by decide +kernel) "  "
  have hi : ∀ c ∈ "  ".toList, c = ' ' := by simp
  have hended := (ended_comment_iff (by decide +kernel) hc).mp (h _ _ _ hi hc).ended
  exact ((not_closes_lines_iff _).mp hended).1 (by decide +kernel)

end Doc

end ElementWrappers
