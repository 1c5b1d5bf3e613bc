import Mathlib
import ElementWrappers.Proofs.Tokens
import ElementWrappers.Proofs.WordSpots

/-!
# White space around words

How much white space there is says nothing about the words of a type expression,
so normalizing it keeps every word and its spot: `occurrences_normalize`.
-/

namespace ElementWrappers.TypeExpr

section Blanks

variable {b b' : Before} {c : Char} {x y gap gap' rest rest' : List Char}

theorem startsLikeKeyEnd_blanks (h : ∀ c ∈ gap, Text.isBlank c = true) (x : List Char) :
    startsLikeKeyEnd (gap ++ x) = startsLikeKeyEnd x := by
  induction gap with
  | nil => rfl
  | cons c gap ih =>
    rw [List.cons_append, startsLikeKeyEnd_blank (h c List.mem_cons_self),
      ih fun d hd => h d (List.mem_cons_of_mem _ hd)]

theorem endsOperand_blanks (h : ∀ c ∈ gap, Text.isBlank c = true) (x : List Char) :
    endsOperand (gap ++ x) = endsOperand x := by
  induction gap with
  | nil => rfl
  | cons c gap ih =>
    rw [List.cons_append, endsOperand_blank (h c List.mem_cons_self),
      ih fun d hd => h d (List.mem_cons_of_mem _ hd)]

/-- Two texts behind a word that say the same about it. -/
structure AlikeBehind (rest rest' : List Char) : Prop where
  keyEnd : startsLikeKeyEnd rest = startsLikeKeyEnd rest'
  ends : endsOperand rest = endsOperand rest'
  head : ∀ c ∈ [':', ']'], (rest.head? = some c ↔ rest'.head? = some c)

theorem head_blanks_ne {d : Char} (hg : ∀ c ∈ d :: gap, Text.isBlank c = true) (x : List Char)
    (hc : c ∈ [':', ']']) : (d :: gap ++ x).head? ≠ some c := by
  intro he
  have hblank : Text.isBlank c = true := by
    rw [← Option.some.inj he]
    exact hg d List.mem_cons_self
  have hall : [':', ']'].all (fun c => !Text.isBlank c) = true := by decide
  have hnot := List.all_eq_true.mp hall c hc
  rw [hblank] at hnot
  cases hnot

namespace AlikeBehind

theorem refl (rest : List Char) : AlikeBehind rest rest := ⟨rfl, rfl, fun _ _ => Iff.rfl⟩

theorem cons (h : AlikeBehind rest rest') (c : Char) : AlikeBehind (c :: rest) (c :: rest') := by
  have hhead : ∀ d ∈ [':', ']'], (rest.head? == some d) = (rest'.head? == some d) := by
    intro d hd
    rw [Bool.eq_iff_iff, beq_iff_eq, beq_iff_eq]
    exact h.head d hd
  refine ⟨?_, ?_, fun _ _ => Iff.rfl⟩
  · by_cases hc : Text.isBlank c = true
    · rw [startsLikeKeyEnd_blank hc, startsLikeKeyEnd_blank hc, h.keyEnd]
    · have hc := Bool.eq_false_of_not_eq_true hc
      rw [startsLikeKeyEnd_cons hc, startsLikeKeyEnd_cons hc, hhead ':' (by decide)]
  · by_cases hc : Text.isBlank c = true
    · rw [endsOperand_blank hc, endsOperand_blank hc, h.ends]
    · have hc := Bool.eq_false_of_not_eq_true hc
      rw [endsOperand_cons hc, endsOperand_cons hc, hhead ']' (by decide)]

theorem append (h : AlikeBehind rest rest') (x : List Char) :
    AlikeBehind (x ++ rest) (x ++ rest') := by
  induction x with
  | nil => exact h
  | cons c x ih => exact ih.cons c

/-- Some blanks in front, or others, or none. -/
theorem blanks (h : AlikeBehind rest rest') (hb : ∀ c ∈ gap, Text.isBlank c = true)
    (hb' : ∀ c ∈ gap', Text.isBlank c = true)
    (hne : gap = [] ↔ gap' = []) : AlikeBehind (gap ++ rest) (gap' ++ rest') := by
  refine ⟨?_, ?_, ?_⟩
  · rw [startsLikeKeyEnd_blanks hb, startsLikeKeyEnd_blanks hb', h.keyEnd]
  · rw [endsOperand_blanks hb, endsOperand_blanks hb', h.ends]
  · intro c hc
    cases gap with
    | nil => rw [hne.mp rfl]; exact h.head c hc
    | cons d z =>
      cases gap' with
      | nil => cases hne.mpr rfl
      | cons d' z' => exact iff_of_false (head_blanks_ne hb rest hc) (head_blanks_ne hb' rest' hc)

/-- Blanks in front of something else than the end of a key or of a bracket. -/
theorem spaced (hg : ∀ c ∈ gap, Text.isBlank c = true)
    (hr : ∀ c ∈ [':', ']'], rest.head? ≠ some c) : AlikeBehind (gap ++ rest) rest := by
  cases gap with
  | nil => exact .refl rest
  | cons d gap =>
    refine ⟨startsLikeKeyEnd_blanks hg rest, endsOperand_blanks hg rest, fun c hc => ?_⟩
    exact iff_of_false (head_blanks_ne hg rest hc) (hr c hc)

/-- Nothing behind a comma says something about a word before it. -/
theorem comma (x y : List Char) : AlikeBehind (',' :: x) (',' :: y) := by
  refine ⟨?_, ?_, fun _ _ => Iff.rfl⟩
  · rw [startsLikeKeyEnd_cons (by decide), startsLikeKeyEnd_cons (by decide)]
    rfl
  · rw [endsOperand_cons (by decide), endsOperand_cons (by decide)]
    rfl

end AlikeBehind

theorem occurrences_gap (h : ∀ c ∈ gap, Text.isBlank c = true) (x : List Char) :
    occurrences b rest (gap ++ x) = occurrences (b.run gap) rest x := by
  induction gap generalizing b with
  | nil => rfl
  | cons c gap ih =>
    rw [List.cons_append, occurrences_char (isIdentifierChar_of_isBlank (h c List.mem_cons_self)),
      ih fun d hd => h d (List.mem_cons_of_mem _ hd)]
    rfl

theorem occurrences_congr_rest (h : AlikeBehind rest rest') (b : Before) (x : List Char) :
    occurrences b rest x = occurrences b rest' x := by
  induction x generalizing b with
  | nil => rfl
  | cons c x ih =>
    have ha := h.append (x.dropWhile isIdentifierChar)
    rw [occurrences, occurrences, ih, ha.keyEnd, ha.ends]

/-- Two texts with the same characters but for white space: where one has some the
other has some, and after a comma they may have any. -/
inductive Respaced : List Char → List Char → Prop
  | nil : Respaced [] []
  | char (c : Char) {x y : List Char} (h : Respaced x y) : Respaced (c :: x) (c :: y)
  | blanks {gap gap' x y : List Char} (some : gap ≠ []) (some' : gap' ≠ [])
      (blank : ∀ c ∈ gap, Text.isBlank c = true) (blank' : ∀ c ∈ gap', Text.isBlank c = true)
      (h : Respaced x y) : Respaced (gap ++ x) (gap' ++ y)
  | comma {gap gap' x y : List Char} (blank : ∀ c ∈ gap, Text.isBlank c = true)
      (blank' : ∀ c ∈ gap', Text.isBlank c = true) (h : Respaced x y) :
      Respaced (',' :: (gap ++ x)) (',' :: (gap' ++ y))

namespace Respaced

theorem alikeBehind (h : Respaced x y) (rest : List Char) :
    AlikeBehind (x ++ rest) (y ++ rest) := by
  induction h with
  | nil => exact .refl rest
  | char c _ ih => exact ih.cons c
  | blanks hne hne' hb hb' _ ih =>
    rw [List.append_assoc, List.append_assoc]
    exact ih.blanks hb hb' (iff_of_false hne hne')
  | comma _ _ _ _ => exact .comma _ _

/-- The words at the start are the same, and so is what comes behind them. -/
theorem word (h : Respaced x y) : x.takeWhile isIdentifierChar = y.takeWhile isIdentifierChar ∧
    Respaced (x.dropWhile isIdentifierChar) (y.dropWhile isIdentifierChar) := by
  have hstop : ∀ {c : Char} {z : List Char}, isIdentifierChar c = false →
      (c :: z).takeWhile isIdentifierChar = [] ∧ (c :: z).dropWhile isIdentifierChar = c :: z := by
    intro c z hc
    rw [List.takeWhile_cons, List.dropWhile_cons, hc]
    exact ⟨rfl, rfl⟩
  have hcomma : isIdentifierChar ',' = false := not_isIdentifierChar_of_mem_breaks (by decide)
  induction h with
  | nil => exact ⟨rfl, .nil⟩
  | @char c x y h ih =>
    by_cases hc : isIdentifierChar c = true
    · rw [List.takeWhile_cons_of_pos hc, List.takeWhile_cons_of_pos hc,
        List.dropWhile_cons_of_pos hc, List.dropWhile_cons_of_pos hc, ih.1]
      exact ⟨rfl, ih.2⟩
    · have hc := Bool.eq_false_of_not_eq_true hc
      rw [(hstop hc).1, (hstop hc).2, (hstop hc).1, (hstop hc).2]
      exact ⟨rfl, .char c h⟩
  | @blanks gap gap' x y hne hne' hb hb' h ih =>
    obtain ⟨c, z, rfl⟩ := List.exists_cons_of_ne_nil hne
    obtain ⟨c', z', rfl⟩ := List.exists_cons_of_ne_nil hne'
    have hc := isIdentifierChar_of_isBlank (hb c List.mem_cons_self)
    have hc' := isIdentifierChar_of_isBlank (hb' c' List.mem_cons_self)
    rw [List.cons_append, List.cons_append, (hstop hc).1, (hstop hc).2, (hstop hc').1,
      (hstop hc').2]
    exact ⟨rfl, .blanks hne hne' hb hb' h⟩
  | @comma gap gap' x y hb hb' h ih =>
    rw [(hstop hcomma).1, (hstop hcomma).2, (hstop hcomma).1, (hstop hcomma).2]
    exact ⟨rfl, .comma hb hb' h⟩

theorem occurrences_eq (h : Respaced x y) (hb : b.IsQuoted) (rest : List Char) :
    occurrences b rest x = occurrences b rest y := by
  induction h generalizing b with
  | nil => rfl
  | @char c x y h ih =>
    have halike := h.word.2.alikeBehind rest
    rw [occurrences, occurrences, ih (hb.step c), h.word.1, halike.keyEnd, halike.ends]
  | @blanks gap gap' x y hne hne' hg hg' h ih =>
    rw [occurrences_gap hg, occurrences_gap hg', Before.run_blanks hb hne hg,
      Before.run_blanks hb hne' hg', ih (hb.step ' ')]
  | @comma gap gap' x y hg hg' h ih =>
    have hfresh := Before.isFresh_step hb (c := ',') (by decide)
    have hcomma : isIdentifierChar ',' = false := not_isIdentifierChar_of_mem_breaks (by decide)
    rw [occurrences_char hcomma, occurrences_char hcomma, occurrences_gap hg, occurrences_gap hg',
      hfresh.run_blanks hg, hfresh.run_blanks hg', ih hfresh.quoted]

end Respaced

/-! ## Normalizing -/

theorem respaced_joinLines (x : List Char) : Respaced (joinLines x) x := by
  induction x using joinLines.induct with
  | case1 rest ih =>
    exact @Respaced.blanks [' '] ['\r', '\n'] _ _ (List.cons_ne_nil _ _) (List.cons_ne_nil _ _)
      Text.isBlank_singleton (by simp [Text.isBlank]) ih
  | case2 rest ih =>
    exact @Respaced.blanks [' '] ['\n'] _ _ (List.cons_ne_nil _ _) (List.cons_ne_nil _ _)
      Text.isBlank_singleton (by simp [Text.isBlank]) ih
  | case3 c rest h1 h2 ih =>
    rw [joinLines]
    · exact .char c ih
    · exact h1
    · exact h2
  | case4 => exact .nil

theorem respaced_collapse (x : List Char) : Respaced (collapse x) x := by
  induction x using collapse.induct with
  | case1 => rw [collapse_nil]; exact .nil
  | case2 c => rw [collapse_singleton]; exact .char c .nil
  | case3 c d rest hb _ ih =>
    have hrun : ∀ e ∈ c :: d :: rest.takeWhile Text.isBlank, Text.isBlank e = true := by
      rw [Bool.and_eq_true] at hb
      intro e he
      rcases List.mem_cons.mp he with rfl | he
      · exact hb.1
      rcases List.mem_cons.mp he with rfl | he
      · exact hb.2
      · exact List.mem_takeWhile_imp he
    have h := Respaced.blanks (List.cons_ne_nil ' ' []) (List.cons_ne_nil c _)
      Text.isBlank_singleton hrun ih
    rw [List.cons_append, List.cons_append, List.cons_append, List.nil_append,
      List.takeWhile_append_dropWhile] at h
    rw [collapse_run hb]
    exact h
  | case4 c d rest hb ih =>
    rw [collapse_pair hb]
    exact .char c ih

theorem respaced_spaceCommas (x : List Char) : Respaced (spaceCommas x) x := by
  induction x using spaceCommas.induct with
  | case1 => rw [spaceCommas]; exact .nil
  | case2 rest _ ih =>
    have h := @Respaced.comma [' '] (rest.takeWhile Text.isBlank) _ _ Text.isBlank_singleton
      (fun c hc => List.mem_takeWhile_imp hc) ih
    rw [List.takeWhile_append_dropWhile] at h
    rw [spaceCommas, if_pos rfl]
    exact h
  | case3 c rest hne ih =>
    rw [spaceCommas, if_neg hne]
    exact .char c ih

/-- Where a type may begin, blanks around a text do not count. -/
theorem occurrences_trim (hb : b.IsFresh) (x : List Char) :
    ∃ gap : List Char, (∀ c ∈ gap, Text.isBlank c = true) ∧
      (∀ rest, occurrences b rest x = occurrences b (gap ++ rest) (Text.trim x)) ∧
      b.run x = (b.run (Text.trim x)).run gap := by
  obtain ⟨gap, gap', hg, hg', he⟩ := Text.exists_trim_append x
  have hnil : ∀ (a : Before) (rest : List Char), occurrences a rest gap' = [] := by
    intro a rest
    have h : occurrences a rest (gap' ++ []) = occurrences (a.run gap') rest [] :=
      occurrences_gap hg' []
    rwa [List.append_nil] at h
  refine ⟨gap', hg', fun rest => ?_, ?_⟩
  · conv_lhs => rw [he]
    rw [occurrences_gap hg, hb.run_blanks hg,
      occurrences_append_of_wordMayEnd (wordMayEnd_blanks hg'), hnil, List.append_nil]
  · conv_lhs => rw [he]
    rw [Before.run_append, hb.run_blanks hg, Before.run_append]

/-- Normalizing keeps every word and its spot. -/
theorem occurrences_normalize (x : List Char) :
    occurrences {} [] (normalize x) = occurrences {} [] x := by
  have hquoted := Before.isFresh_start.quoted
  obtain ⟨gap, hg, ht, -⟩ :=
    occurrences_trim Before.isFresh_start (spaceCommas (collapse (joinLines x)))
  have hrest : AlikeBehind (gap ++ []) [] := .spaced hg nofun
  calc occurrences {} [] (normalize x)
      = occurrences {} (gap ++ []) (normalize x) := (occurrences_congr_rest hrest {} _).symm
    _ = occurrences {} [] (spaceCommas (collapse (joinLines x))) := (ht []).symm
    _ = occurrences {} [] (collapse (joinLines x)) :=
      (respaced_spaceCommas _).occurrences_eq hquoted []
    _ = occurrences {} [] (joinLines x) := (respaced_collapse _).occurrences_eq hquoted []
    _ = occurrences {} [] x := (respaced_joinLines x).occurrences_eq hquoted []

end Blanks

end ElementWrappers.TypeExpr
