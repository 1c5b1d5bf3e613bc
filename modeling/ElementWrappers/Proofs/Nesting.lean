import ElementWrappers.Proofs.TypeSyntax

/-!
# Nesting of printed types

A nested text has its brackets in pairs, its literals closed, and none of some
separators outside the pairs. The three scanners of type expressions come out of
such a text as they went into it. Printed types are nested.
-/

namespace ElementWrappers.TypeExpr

def brackets : List (Char × Char) := [('<', '>'), ('\x7b', '\x7d'), ('(', ')'), ('[', ']')]

/-- The characters that types are split at. -/
def separators : List Char := [',', '|', '&']

/-- Characters that neither quote nor enclose. -/
def isPlain (c : Char) : Bool := !isQuote c && c != '=' && bracketShift none c == 0

inductive Nested : List Char → List Char → Prop
  | nil {seps : List Char} : Nested seps []
  | plain {seps : List Char} {c : Char} {rest : List Char} (hc : isPlain c = true)
      (hs : c ∉ seps) : Nested seps rest → Nested seps (c :: rest)
  | arrow {seps rest : List Char} : Nested seps rest → Nested seps ('=' :: '>' :: rest)
  | quoted {seps w rest : List Char} (hw : ∀ c ∈ w, isIdentifierChar c = true) :
      Nested seps rest → Nested seps ('\'' :: (w ++ '\'' :: rest))
  | bracket {seps : List Char} {o c : Char} {inner rest : List Char} (h : (o, c) ∈ brackets) :
      Nested [] inner → Nested seps rest → Nested seps (o :: (inner ++ c :: rest))

namespace Nested

variable {seps cuts x y : List Char}

theorem append (hx : Nested seps x) (hy : Nested seps y) : Nested seps (x ++ y) := by
  induction hx with
  | nil => exact hy
  | plain hc hs _ ih => exact .plain hc hs (ih hy)
  | arrow _ ih => exact .arrow (ih hy)
  | quoted hw _ ih =>
    rw [List.cons_append, List.append_assoc]
    exact .quoted hw (ih hy)
  | bracket h hi _ _ ih =>
    rw [List.cons_append, List.append_assoc]
    exact .bracket h hi (ih hy)

theorem mono (h : cuts ⊆ seps) (hx : Nested seps x) : Nested cuts x := by
  induction hx with
  | nil => exact .nil
  | plain hc hs _ ih => exact .plain hc (fun hm => hs (h hm)) (ih h)
  | arrow _ ih => exact .arrow (ih h)
  | quoted hw _ ih => exact .quoted hw (ih h)
  | bracket hb hi _ _ ih => exact .bracket hb hi (ih h)

/-- The last character opens nothing. -/
theorem getLast?_ne (hx : Nested seps x) : x.getLast? ≠ some '[' := by
  have hlast : ∀ {c : Char} {u rest : List Char}, c ≠ '[' → rest.getLast? ≠ some '[' →
      (u ++ c :: rest).getLast? ≠ some '[' := by
    intro c u rest hc hrest h
    cases rest with
    | nil => exact hc (by simpa using h)
    | cons d rest => exact hrest (by simpa using h)
  induction hx with
  | nil => simp
  | plain hc _ _ ih =>
    refine hlast (u := []) ?_ ih
    rintro rfl
    cases hc
  | @arrow _ rest _ ih => exact hlast (u := ['=']) (by decide) ih
  | @quoted _ w rest _ _ ih => exact hlast (u := '\'' :: w) (by decide) ih
  | @bracket _ o c inner rest h _ _ _ ih =>
    refine hlast (u := o :: inner) ?_ ih
    have hall : ∀ p ∈ brackets, p.2 ≠ '[' := by decide
    exact hall _ h

/-! ## Scanning -/

theorem bracketShift_plain {c : Char} (hc : isPlain c = true) (previous : Option Char) :
    bracketShift previous c = 0 := by
  have h : bracketShift none c = 0 := by
    simp only [isPlain, Bool.and_eq_true, beq_iff_eq] at hc
    exact hc.2
  unfold bracketShift at h ⊢
  split at h
  · cases h
  · rename_i h1
    split at h
    · cases h
    · rename_i h2
      rwa [if_neg h1, if_neg h2]

theorem isPlain_of_isIdentifierChar {c : Char} (hc : isIdentifierChar c = true) :
    isPlain c = true := by
  have hne : ∀ d ∈ breaks, c ≠ d := fun d hd => ne_of_isIdentifierChar hc hd
  have hshift : bracketShift none c = 0 := by
    unfold bracketShift
    rw [if_neg, if_neg, if_neg]
    · rintro (h | h | h) <;> exact hne _ (by decide) h
    · exact hne _ (by decide)
    · rintro (h | h | h | h) <;> exact hne _ (by decide) h
  simp [isPlain, isQuote_of_isIdentifierChar hc, hshift, hne '=' (by decide)]

theorem ne_of_isPlain {c : Char} (hc : isPlain c = true) : isQuote c = false ∧ c ≠ '=' := by
  simp only [isPlain, Bool.and_eq_true, Bool.not_eq_true', bne_iff_ne] at hc
  exact hc.1

/-- What the brackets of a pair do to the depth. -/
theorem bracketShift_brackets {o c : Char} (h : (o, c) ∈ brackets) (previous : Option Char) :
    bracketShift previous o = 1 ∧ (previous ≠ some '=' → bracketShift previous c = -1) := by
  simp only [brackets, List.mem_cons, Prod.mk.injEq, List.not_mem_nil, or_false] at h
  rcases h with ⟨rfl, rfl⟩ | ⟨rfl, rfl⟩ | ⟨rfl, rfl⟩ | ⟨rfl, rfl⟩
  · exact ⟨rfl, fun hp => by simp [bracketShift, hp]⟩
  all_goals exact ⟨rfl, fun _ => rfl⟩

theorem ne_of_mem_brackets {o c : Char} (h : (o, c) ∈ brackets) :
    isQuote o = false ∧ isQuote c = false ∧ o ≠ '=' ∧ c ≠ '=' ∧ o ∉ separators ∧ c ∉ separators := by
  have hall : ∀ p ∈ brackets, isQuote p.1 = false ∧ isQuote p.2 = false ∧ p.1 ≠ '=' ∧ p.2 ≠ '=' ∧
      p.1 ∉ separators ∧ p.2 ∉ separators := by decide
  exact hall _ h

/-- No bracket opens and closes, and those of two pairs agree if one does. -/
theorem brackets_pairwise {a b o c : Char} (ha : (a, b) ∈ brackets) (ho : (o, c) ∈ brackets) :
    a ≠ c ∧ b ≠ o ∧ (a = o ↔ b = c) := by
  have hall : ∀ p ∈ brackets, ∀ q ∈ brackets, p.1 ≠ q.2 ∧ p.2 ≠ q.1 ∧ (p.1 = q.1 ↔ p.2 = q.2) := by
    decide
  exact hall _ ha _ ho

/-- Neither plain characters nor those of arrows and quotes are brackets. -/
theorem ne_brackets {o c d : Char} (h : (o, c) ∈ brackets)
    (hd : isPlain d = true ∨ isQuote d = true ∨ d = '=') : d ≠ o ∧ d ≠ c := by
  have hall : ∀ p ∈ brackets, (isPlain p.1 = false ∧ isQuote p.1 = false ∧ p.1 ≠ '=') ∧
      isPlain p.2 = false ∧ isQuote p.2 = false ∧ p.2 ≠ '=' := by decide
  have hne : ∀ {b : Char}, isPlain b = false ∧ isQuote b = false ∧ b ≠ '=' → d ≠ b := by
    rintro b ⟨hp, hq, he⟩ rfl
    simp [hp, hq, he] at hd
  exact ⟨hne (hall _ h).1, hne (hall _ h).2⟩

end Nested

/-! ## Splitting -/

/-- Puts a text in front of the first piece. -/
def prepend (x : List Char) (pieces : List Piece) : List Piece := x.foldr pushFront pieces

theorem prepend_append (x y : List Char) (pieces : List Piece) :
    prepend (x ++ y) pieces = prepend x (prepend y pieces) := List.foldr_append

theorem prepend_cons (x text : List Char) (after : Option Char) (rest : List Piece) :
    prepend x (⟨text, after⟩ :: rest) = ⟨x ++ text, after⟩ :: rest := by
  induction x with
  | nil => rfl
  | cons c x ih => rw [prepend, List.foldr_cons, ← prepend, ih]; rfl

/-- A place outside literals. -/
def Scan.outside (previous : Option Char) (depth : Int) : Scan := ⟨⟨none, previous⟩, depth⟩

theorem splitFrom_of_not_cuts {cuts : List Char} {s : Scan} {c : Char} (h : s.cuts cuts c = false)
    (rest : List Char) :
    splitFrom cuts s (c :: rest) = pushFront c (splitFrom cuts (s.step c) rest) := by
  rw [splitFrom, h, if_neg Bool.false_ne_true]

/-- Outside literals a character is passed that is no separator here. -/
theorem splitFrom_outside {cuts : List Char} {previous : Option Char} {depth : Int} {c : Char}
    (hq : isQuote c = false) (hc : depth = 0 → c ∉ cuts) (rest : List Char) :
    splitFrom cuts (.outside previous depth) (c :: rest) =
      pushFront c (splitFrom cuts (.outside (some c) (depth + bracketShift previous c)) rest) := by
  have hcuts : (Scan.outside previous depth).cuts cuts c = false := by
    by_cases hd : depth = 0
    · simp [Scan.cuts, Scan.outside, hc hd]
    · simp [Scan.cuts, Scan.outside, hd]
  have hstep : (Scan.outside previous depth).step c =
      .outside (some c) (depth + bracketShift previous c) := by
    simp [Scan.step, Scan.outside, Quotes.step, Quotes.covers, hq]
  rw [splitFrom_of_not_cuts hcuts, hstep]

/-- A literal is passed whatever it says. -/
theorem splitFrom_literal {cuts w : List Char} {depth : Int} (hw : ∀ c ∈ w, isIdentifierChar c = true)
    {previous : Option Char} (hp : previous ≠ some '\\') (rest : List Char) :
    splitFrom cuts ⟨⟨some '\'', previous⟩, depth⟩ (w ++ '\'' :: rest) =
      prepend (w ++ ['\'']) (splitFrom cuts (.outside (some '\'') depth) rest) := by
  induction w generalizing previous with
  | nil =>
    rw [List.nil_append, splitFrom_of_not_cuts (by simp [Scan.cuts, Quotes.covers])]
    simp [Scan.step, Quotes.step, Quotes.covers, hp, prepend, Scan.outside]
  | cons c w ih =>
    have hc := hw c List.mem_cons_self
    have hquote : c ≠ '\'' := ne_of_isIdentifierChar hc (by decide)
    have hslash : some c ≠ some '\\' := fun h =>
      ne_of_isIdentifierChar hc (show '\\' ∈ breaks by decide) (Option.some.inj h)
    have hstep : (⟨⟨some '\'', previous⟩, depth⟩ : Scan).step c = ⟨⟨some '\'', some c⟩, depth⟩ := by
      simp [Scan.step, Quotes.step, Quotes.covers, hquote]
    rw [List.cons_append, splitFrom_of_not_cuts (by simp [Scan.cuts, Quotes.covers]), hstep,
      ih (fun d hd => hw d (List.mem_cons_of_mem _ hd)) hslash]
    rfl

/-- Nothing of a nested text is cut off, and the scan goes on as it was. -/
theorem Nested.splitFrom_append {seps cuts x : List Char} (h : Nested seps x) (hm : cuts ⊆ separators)
    {previous : Option Char} {depth : Int} (hp : previous ≠ some '=') (hd : 0 ≤ depth)
    (hc : depth = 0 → cuts ⊆ seps) :
    ∃ last, last ≠ some '=' ∧ ∀ rest, splitFrom cuts (.outside previous depth) (x ++ rest) =
      prepend x (splitFrom cuts (.outside last depth) rest) := by
  induction h generalizing previous depth with
  | nil => exact ⟨previous, hp, fun _ => rfl⟩
  | @plain seps c rest hplain hs _ ih =>
    obtain ⟨hq, hne⟩ := ne_of_isPlain hplain
    obtain ⟨last, hlast, he⟩ := ih (show some c ≠ some '=' by simpa using hne) hd hc
    refine ⟨last, hlast, fun r => ?_⟩
    rw [List.cons_append, splitFrom_outside hq fun h0 hm => hs (hc h0 hm), bracketShift_plain hplain,
      Int.add_zero, he]
    rfl
  | arrow _ ih =>
    obtain ⟨last, hlast, he⟩ := ih (show some '>' ≠ some '=' by decide) hd hc
    refine ⟨last, hlast, fun r => ?_⟩
    have heq : '=' ∉ cuts := fun hmem => absurd (hm hmem) (by decide)
    have hgt : '>' ∉ cuts := fun hmem => absurd (hm hmem) (by decide)
    rw [List.cons_append, List.cons_append, splitFrom_outside (by decide) fun _ => heq,
      splitFrom_outside (by decide) fun _ => hgt]
    show pushFront '=' (pushFront '>' (splitFrom cuts (.outside _ (depth + 0 + 0)) _)) = _
    rw [Int.add_zero, Int.add_zero, he]
    rfl
  | @quoted seps w rest hw _ ih =>
    obtain ⟨last, hlast, he⟩ := ih (show some '\'' ≠ some '=' by decide) hd hc
    refine ⟨last, hlast, fun r => ?_⟩
    have hquote : '\'' ∉ cuts := fun hmem => absurd (hm hmem) (by decide)
    have hcuts : (Scan.outside previous depth).cuts cuts '\'' = false := by
      simp [Scan.cuts, Scan.outside, hquote]
    have hstep : (Scan.outside previous depth).step '\'' = ⟨⟨some '\'', some '\''⟩, depth⟩ := by
      simp [Scan.step, Scan.outside, Quotes.step, Quotes.covers, isQuote]
    rw [List.cons_append, List.append_assoc, List.cons_append, splitFrom_of_not_cuts hcuts, hstep,
      splitFrom_literal hw (by decide), he, ← prepend_append]
    show pushFront '\'' (prepend ((w ++ ['\'']) ++ rest) _) = prepend ('\'' :: (w ++ '\'' :: rest)) _
    rw [List.append_assoc]
    rfl
  | @bracket seps o c inner rest hb _ _ ihi ih =>
    obtain ⟨hqo, hqc, hneo, hnec, hso, hsc⟩ := ne_of_mem_brackets hb
    obtain ⟨li, hli, hei⟩ := ihi (show some o ≠ some '=' by simpa using hneo)
      (show 0 ≤ depth + 1 by omega) (by omega)
    obtain ⟨last, hlast, he⟩ := ih (show some c ≠ some '=' by simpa using hnec) hd hc
    refine ⟨last, hlast, fun r => ?_⟩
    rw [List.cons_append, List.append_assoc, List.cons_append,
      splitFrom_outside hqo fun _ hmem => hso (hm hmem), (bracketShift_brackets hb _).1, hei,
      splitFrom_outside hqc fun _ hmem => hsc (hm hmem), (bracketShift_brackets hb _).2 hli,
      Int.add_neg_cancel_right, he]
    show pushFront o (prepend inner (prepend (c :: rest) _)) = prepend (o :: (inner ++ c :: rest)) _
    rw [← prepend_append]
    rfl

/-! ## Arrows -/

theorem hasArrow_cons {previous : Option Char} {depth : Int} {c : Char} {rest : List Char}
    (h : hasArrow (depth + bracketShift previous c) (some c) rest = true) :
    hasArrow depth previous (c :: rest) = true := by
  rw [hasArrow, h, Bool.or_true]

theorem hasArrow_word {w : List Char} {depth : Int} (hw : ∀ c ∈ w, isIdentifierChar c = true)
    {previous : Option Char} {rest : List Char}
    (h : ∀ last, last ≠ some '=' → hasArrow depth last rest = true) (hp : previous ≠ some '=') :
    hasArrow depth previous (w ++ rest) = true := by
  induction w generalizing previous with
  | nil => exact h previous hp
  | cons c w ih =>
    have hc := hw c List.mem_cons_self
    refine hasArrow_cons ?_
    rw [Nested.bracketShift_plain (Nested.isPlain_of_isIdentifierChar hc), Int.add_zero]
    refine ih (fun d hd => hw d (List.mem_cons_of_mem _ hd)) ?_
    simpa using ne_of_isIdentifierChar hc (by decide)

/-- An arrow after a nested text is found. -/
theorem Nested.hasArrow_append {seps x : List Char} (hx : Nested seps x) {previous : Option Char}
    {depth : Int} {rest : List Char}
    (h : ∀ last, last ≠ some '=' → hasArrow depth last rest = true) (hp : previous ≠ some '=') :
    hasArrow depth previous (x ++ rest) = true := by
  induction hx generalizing previous depth rest with
  | nil => exact h previous hp
  | plain hc _ _ ih =>
    refine hasArrow_cons ?_
    rw [bracketShift_plain hc, Int.add_zero]
    exact ih h (by simpa using (ne_of_isPlain hc).2)
  | arrow _ ih =>
    refine hasArrow_cons (hasArrow_cons ?_)
    show hasArrow (depth + 0 + 0) _ _ = true
    rw [Int.add_zero, Int.add_zero]
    exact ih h (by decide)
  | quoted hw _ ih =>
    rw [List.cons_append, List.append_assoc, List.cons_append]
    refine hasArrow_cons ?_
    show hasArrow (depth + 0) _ _ = true
    rw [Int.add_zero]
    refine hasArrow_word hw (fun last _ => hasArrow_cons ?_) (by decide)
    show hasArrow (depth + 0) _ _ = true
    rw [Int.add_zero]
    exact ih h (by decide)
  | bracket hb _ _ ihi ih =>
    obtain ⟨-, -, hneo, hnec, -⟩ := ne_of_mem_brackets hb
    rw [List.cons_append, List.append_assoc, List.cons_append]
    refine hasArrow_cons (ihi (fun last hlast => hasArrow_cons ?_) (by simpa using hneo))
    rw [(bracketShift_brackets hb _).1, (bracketShift_brackets hb _).2 hlast,
      Int.add_neg_cancel_right]
    exact ih h (by simpa using hnec)

/-! ## Enclosing brackets -/

section Closing

variable {o c : Char}

/-- Characters that are not of the pair are passed. -/
theorem closesAtEnd_other {previous d : Char} {inner : Nat} (ho : d ≠ o)
    (hc : d ≠ c ∨ d = '>' ∧ previous = '=') (rest : List Char) :
    closesAtEnd o c previous inner (d :: rest) = closesAtEnd o c d inner rest := by
  rw [closesAtEnd.eq_def]
  simp only
  rw [if_neg ho, if_neg]
  rcases hc with hc | ⟨rfl, rfl⟩
  · simp [hc]
  · by_cases h : '>' = c
    · simp [← h]
    · simp [h]

theorem closesAtEnd_opening {previous : Char} {inner : Nat} (rest : List Char) :
    closesAtEnd o c previous inner (o :: rest) = closesAtEnd o c o (inner + 1) rest := by
  rw [closesAtEnd.eq_def]
  exact if_pos rfl

theorem closesAtEnd_closing {previous : Char} {inner : Nat} (hne : c ≠ o) (hp : previous ≠ '=')
    (rest : List Char) :
    closesAtEnd o c previous inner (c :: rest) = match inner with
      | 0 => rest.isEmpty
      | n + 1 => closesAtEnd o c c n rest := by
  rw [closesAtEnd.eq_def]
  simp only
  refine (if_neg hne).trans ((if_pos (by simp [hp])).trans ?_)
  cases inner <;> rfl

theorem closesAtEnd_word {w : List Char} (hb : (o, c) ∈ brackets)
    (hw : ∀ d ∈ w, isIdentifierChar d = true) {previous : Char} (hp : previous ≠ '=') :
    ∃ last, last ≠ '=' ∧ ∀ inner rest, closesAtEnd o c previous inner (w ++ rest) =
      closesAtEnd o c last inner rest := by
  have hall : ∀ p ∈ brackets, p.1 ∈ breaks ∧ p.2 ∈ breaks := by decide
  obtain ⟨hob, hcb⟩ := hall _ hb
  induction w generalizing previous with
  | nil => exact ⟨previous, hp, fun _ _ => rfl⟩
  | cons d w ih =>
    have hd := hw d List.mem_cons_self
    obtain ⟨last, hlast, he⟩ := ih (fun e he => hw e (List.mem_cons_of_mem _ he))
      (ne_of_isIdentifierChar hd (show '=' ∈ breaks by decide))
    refine ⟨last, hlast, fun inner rest => ?_⟩
    rw [List.cons_append, closesAtEnd_other (ne_of_isIdentifierChar hd hob)
      (.inl (ne_of_isIdentifierChar hd hcb)), he]

/-- A nested text closes every bracket that it opens. -/
theorem Nested.closesAtEnd_append {seps x : List Char} (hx : Nested seps x) (hb : (o, c) ∈ brackets)
    {previous : Char} (hp : previous ≠ '=') :
    ∃ last, last ≠ '=' ∧ ∀ inner rest, closesAtEnd o c previous inner (x ++ rest) =
      closesAtEnd o c last inner rest := by
  induction hx generalizing previous with
  | nil => exact ⟨previous, hp, fun _ _ => rfl⟩
  | @plain seps d rest hd _ _ ih =>
    obtain ⟨last, hlast, he⟩ := ih (ne_of_isPlain hd).2
    obtain ⟨hdo, hdc⟩ := ne_brackets hb (.inl hd)
    refine ⟨last, hlast, fun inner r => ?_⟩
    rw [List.cons_append, closesAtEnd_other hdo (.inl hdc), he]
  | arrow _ ih =>
    obtain ⟨last, hlast, he⟩ := ih (show '>' ≠ '=' by decide)
    obtain ⟨heo, hec⟩ := ne_brackets hb (.inr (.inr (show '=' = '=' from rfl)))
    have hgo : '>' ≠ o := (brackets_pairwise (show ('<', '>') ∈ brackets by decide) hb).2.1
    refine ⟨last, hlast, fun inner r => ?_⟩
    rw [List.cons_append, List.cons_append, closesAtEnd_other heo (.inl hec),
      closesAtEnd_other hgo (.inr ⟨rfl, rfl⟩), he]
  | quoted hw _ ih =>
    obtain ⟨last, hlast, he⟩ := ih (show '\'' ≠ '=' by decide)
    obtain ⟨lw, -, hew⟩ := closesAtEnd_word hb hw (show '\'' ≠ '=' by decide)
    obtain ⟨hqo, hqc⟩ := ne_brackets hb (.inr (.inl (show isQuote '\'' = true by decide)))
    refine ⟨last, hlast, fun inner r => ?_⟩
    rw [List.cons_append, List.append_assoc, List.cons_append, closesAtEnd_other hqo (.inl hqc), hew,
      closesAtEnd_other hqo (.inl hqc), he]
  | @bracket seps a b u rest hab _ _ ihi ih =>
    obtain ⟨-, -, hae, hbe, -⟩ := ne_of_mem_brackets hab
    obtain ⟨hac, hbo, hiff⟩ := brackets_pairwise hab hb
    obtain ⟨li, hli, hei⟩ := ihi hae
    obtain ⟨last, hlast, he⟩ := ih hbe
    refine ⟨last, hlast, fun inner r => ?_⟩
    rw [List.cons_append, List.append_assoc, List.cons_append]
    by_cases hao : a = o
    · -- The pair is of the same kind and counts as one more inside.
      obtain rfl := hao
      obtain rfl := hiff.mp rfl
      rw [closesAtEnd_opening, hei, closesAtEnd_closing hbo hli]
      exact he inner r
    · rw [closesAtEnd_other hao (.inl hac), hei,
        closesAtEnd_other hbo (.inl fun h => hao (hiff.mpr h)), he]

/-- The bracket before a nested text closes right after it. -/
theorem Nested.closesAtEnd_eq_true {x : List Char} (hx : Nested [] x) (hb : (o, c) ∈ brackets) :
    closesAtEnd o c o 0 (x ++ [c]) = true := by
  obtain ⟨-, -, hoe, -⟩ := ne_of_mem_brackets hb
  obtain ⟨last, hlast, he⟩ := hx.closesAtEnd_append hb hoe
  rw [he, closesAtEnd_closing (brackets_pairwise hb hb).2.1 hlast]
  rfl

theorem Nested.enclosed?_eq_some {x : List Char} (hx : Nested [] x) (hb : (o, c) ∈ brackets) :
    enclosed? o c (o :: (x ++ [c])) = some x := by
  rw [enclosed?, hx.closesAtEnd_eq_true hb]
  simp

end Closing

/-! ## Printed types -/

namespace Nested

variable {seps : List Char}

theorem of_isWord {w : List Char} (hw : IsWord w) (hs : seps ⊆ separators) : Nested seps w := by
  have hc := hw.chars
  clear hw
  induction w with
  | nil => exact .nil
  | cons c rest ih =>
    have hall : separators ⊆ breaks := by
      intro d hd
      simp only [separators, List.mem_cons, List.not_mem_nil, or_false] at hd
      rcases hd with rfl | rfl | rfl <;> decide
    refine .plain (isPlain_of_isIdentifierChar (hc c List.mem_cons_self)) ?_
      (ih fun d hd => hc d (List.mem_cons_of_mem _ hd))
    exact fun hm => ne_of_isIdentifierChar (hc c List.mem_cons_self) (hall (hs hm)) rfl

theorem commas {xs : List (List Char)} (h : ∀ x ∈ xs, Nested [] x) : Nested [] (commas xs) := by
  induction xs with
  | nil => exact .nil
  | cons x rest ih =>
    have hx := h x List.mem_cons_self
    cases rest with
    | nil => simpa [TypeExpr.commas] using hx
    | cons y rest =>
      have hrest := ih fun z hz => h z (List.mem_cons_of_mem _ hz)
      have hsep : Nested [] (',' :: ' ' :: TypeExpr.commas (y :: rest)) :=
        .plain (by decide) List.not_mem_nil (.plain (by decide) List.not_mem_nil hrest)
      simpa [TypeExpr.commas, List.intercalate_cons_cons] using hx.append hsep

theorem enclosed {o c : Char} (hb : (o, c) ∈ brackets) {xs : List (List Char)}
    (h : ∀ x ∈ xs, Nested [] x) : Nested seps (enclosed o c xs) :=
  .bracket hb (.commas h) .nil

theorem braced {xs : List (List Char)} (h : ∀ x ∈ xs, Nested [] x) : Nested seps (braced xs) := by
  cases xs with
  | nil => exact .bracket (by decide) .nil .nil
  | cons x rest =>
    have hsp : Nested [] [' '] := .plain (by decide) List.not_mem_nil .nil
    have hin := hsp.append ((Nested.commas h).append hsp)
    have hall : Nested seps ('\x7b' :: ((' ' :: (TypeExpr.commas (x :: rest) ++ [' '])) ++ ['\x7d'])) :=
      .bracket (by decide) hin .nil
    simpa [TypeExpr.braced] using hall

end Nested

theorem nested_path (first : Name) (tail : List Name) :
    Nested separators (first.chars ++ dotted tail) := by
  induction tail generalizing first with
  | nil => simpa [dotted] using Nested.of_isWord first.isWord (List.Subset.refl separators)
  | cons x rest ih =>
    have hx := Nested.of_isWord first.isWord (List.Subset.refl separators)
    simpa [dotted] using hx.append (Nested.plain (c := '.') (by decide) (by decide) (ih x))

namespace Ty

/-- Whether a type is printed without a mark outside brackets. -/
def isArm : Ty → Bool
  | join _ _ _ => false
  | function _ result => result.isArm
  | _ => true

theorem nested_printMember {m : Key × Ty} (h : Nested [] m.2.print) : Nested [] (printMember m) := by
  have hname := Nested.of_isWord m.1.name.isWord (List.nil_subset separators)
  have hsep : Nested [] (':' :: ' ' :: m.2.print) :=
    .plain (by decide) List.not_mem_nil (.plain (by decide) List.not_mem_nil h)
  unfold printMember Key.print
  split
  · have hopt : Nested [] ['?'] := .plain (by decide) List.not_mem_nil .nil
    exact (hname.append hopt).append hsep
  · rw [List.append_nil]
    exact hname.append hsep

/-- The parts of a type are nested, the type itself up to its marks. -/
def IsNested (t : Ty) : Prop :=
  Nested [','] t.print ∧ (t.isArm = true → Nested separators t.print)

theorem IsNested.of_arm {t : Ty} (h : Nested separators t.print) : t.IsNested :=
  ⟨h.mono (by decide), fun _ => h⟩

theorem IsNested.inner {t : Ty} (h : t.IsNested) : Nested [] t.print := h.1.mono (List.nil_subset _)

theorem forall_map_print {ts : List Ty} (h : ∀ t ∈ ts, t.IsNested) :
    ∀ x ∈ ts.map print, Nested [] x := by
  intro x hx
  obtain ⟨t, ht, rfl⟩ := List.mem_map.mp hx
  exact (h t ht).inner

theorem forall_map_printMember {ms : List (Key × Ty)} (h : ∀ m ∈ ms, m.2.IsNested) :
    ∀ x ∈ ms.map printMember, Nested [] x := by
  intro x hx
  obtain ⟨m, hm, rfl⟩ := List.mem_map.mp hx
  exact nested_printMember (h m hm).inner

theorem isNested (t : Ty) : t.IsNested := by
  induction t using Ty.induct with
  | path first tail => exact .of_arm (nested_path first tail)
  | generic first tail arguments ih =>
    refine .of_arm ?_
    rw [print, printAll_eq_map, ← List.append_assoc]
    exact (nested_path first tail).append (.enclosed (by decide) (forall_map_print ih))
  | array item ih =>
    refine .of_arm ?_
    rw [print]
    refine Nested.append ?_ (.bracket (by decide) .nil .nil)
    split
    · exact .enclosed (by decide) (by simpa using ih.inner)
    · refine ih.2 ?_
      rename_i hp
      cases item <;> first | rfl | exact absurd rfl hp
  | tuple items ih =>
    refine .of_arm ?_
    rw [print, printAll_eq_map]
    exact .enclosed (by decide) (forall_map_print ih)
  | group inner ih => exact .of_arm (.enclosed (by decide) (by simpa using ih.inner))
  | join left mark right ihl ihr =>
    refine ⟨?_, fun h => by cases h⟩
    have hmark : Nested [','] [' ', mark.char, ' '] := by
      cases mark <;> exact .plain (by decide) (by decide) (.plain (by decide) (by decide)
        (.plain (by decide) (by decide) .nil))
    exact ihl.1.append (hmark.append ihr.1)
  | literal label =>
    exact .of_arm (.quoted (List.all_eq_true.mp label.areWordChars) .nil)
  | object members ih =>
    refine .of_arm ?_
    rw [print, printMembers_eq_map]
    exact .braced (forall_map_printMember ih)
  | function parameters result ihp ihr =>
    have hparams : ∀ {seps : List Char},
        Nested seps (TypeExpr.enclosed '(' ')' (parameters.map printMember)) :=
      .enclosed (by decide) (forall_map_printMember ihp)
    have harrow : ∀ {seps : List Char}, ' ' ∉ seps → Nested seps [' ', '=', '>', ' '] :=
      fun h => .plain (by decide) h (.arrow (.plain (by decide) h .nil))
    rw [IsNested, print, printMembers_eq_map]
    exact ⟨hparams.append ((harrow (by decide)).append ihr.1),
      fun h => hparams.append ((harrow (by decide)).append (ihr.2 h))⟩

end Ty

end ElementWrappers.TypeExpr
