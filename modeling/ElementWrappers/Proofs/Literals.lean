import Mathlib
import ElementWrappers.Proofs.ShapeParts
import ElementWrappers.Proofs.Tokens

/-!
# String literals

The string literals of a text that has no backslashes, read from left to right. Two texts
are alike from a place on if they go on with the same literals and leave the same quote
open (`SameLiterals`), and a text is closed if no quote is left open (`ClosesQuotes`). The
parts into which a closed text is split are closed, and have its literals: `literals_split`.
-/

namespace ElementWrappers.TypeExpr

/-- Whether `c` can open, close or escape: it is a quote or a backslash. -/
def delimits (c : Char) : Bool := isQuote c || c == '\\'

/-- What the characters before a place say, if no backslash is the last of them. -/
structure Quotes.IsBare (q : Quotes) : Prop where
  previous : q.previous ≠ some '\\'
  opened : ∀ d, q.opened = some d → isQuote d = true

/-- The quote that is open behind a character with no backslash before it. -/
def openStep (opened : Option Char) (c : Char) : Option Char := (Quotes.step ⟨opened, none⟩ c).opened

/-- The quote that is open behind a text without backslashes. -/
def quoteAfter (opened : Option Char) (text : List Char) : Option Char := text.foldl openStep opened

/-- Every literal of the text ends in it. -/
def ClosesQuotes (text : List Char) : Prop := quoteAfter none text = none

instance (text : List Char) : Decidable (ClosesQuotes text) :=
  inferInstanceAs (Decidable (quoteAfter none text = none))

/-- The literals of a text, of which the first begins with `read` if a quote is open. -/
def literalsFrom (opened : Option Char) (read : List Char) : List Char → List (List Char)
  | [] => if opened.isSome then [read] else []
  | c :: rest =>
    (if opened = some c then [read ++ [c]] else []) ++
      literalsFrom (openStep opened c) (if opened.isSome then read ++ [c] else [c]) rest

/-- The string literals of a text, quotes included. -/
def literals (text : List Char) : List (List Char) := literalsFrom none [] text

section Steps

variable {opened : Option Char} {c q : Char} {read read' w x y : List Char}

theorem openStep_none (c : Char) : openStep none c = if isQuote c then some c else none := rfl

theorem openStep_some (q c : Char) : openStep (some q) c = if c = q then none else some q := by
  simp [openStep, Quotes.step]

theorem openStep_plain (h : isQuote c = false) : openStep none c = none := by
  rw [openStep_none, h, if_neg Bool.false_ne_true]

/-- What is no quote opens nothing and closes nothing. -/
theorem openStep_eq (ho : ∀ d, opened = some d → isQuote d = true) (hc : isQuote c = false) :
    openStep opened c = opened := by
  cases opened with
  | none => exact openStep_plain hc
  | some q =>
    rw [openStep_some, if_neg]
    rintro rfl
    rw [ho c rfl] at hc
    cases hc

theorem quoteAfter_cons (opened : Option Char) (c : Char) (x : List Char) :
    quoteAfter opened (c :: x) = quoteAfter (openStep opened c) x := rfl

theorem quoteAfter_append (opened : Option Char) (x y : List Char) :
    quoteAfter opened (x ++ y) = quoteAfter (quoteAfter opened x) y := List.foldl_append

theorem literalsFrom_cons (opened : Option Char) (read : List Char) (c : Char) (x : List Char) :
    literalsFrom opened read (c :: x) = (if opened = some c then [read ++ [c]] else []) ++
      literalsFrom (openStep opened c) (if opened.isSome then read ++ [c] else [c]) x := rfl

/-- Where no quote is open, nothing of a literal has been read. -/
theorem literalsFrom_none (read : List Char) (x : List Char) :
    literalsFrom none read x = literals x := by
  cases x <;> rfl

theorem quoteAfter_plain (h : ∀ c ∈ w, isQuote c = false) : quoteAfter none w = none := by
  induction w with
  | nil => rfl
  | cons c w ih =>
    rw [quoteAfter_cons, openStep_plain (h c List.mem_cons_self)]
    exact ih fun d hd => h d (List.mem_cons_of_mem _ hd)

/-- Inside a literal all but its quote goes on with it. -/
theorem quoteAfter_inside (h : q ∉ w) : quoteAfter (some q) w = some q := by
  induction w with
  | nil => rfl
  | cons c w ih =>
    have hc : c ≠ q := fun he => h (he ▸ List.mem_cons_self)
    rw [quoteAfter_cons, openStep_some, if_neg hc]
    exact ih fun hm => h (List.mem_cons_of_mem _ hm)

theorem literalsFrom_inside (h : q ∉ w) (read y : List Char) :
    literalsFrom (some q) read (w ++ y) = literalsFrom (some q) (read ++ w) y := by
  induction w generalizing read with
  | nil => rw [List.nil_append, List.append_nil]
  | cons c w ih =>
    have hc : c ≠ q := fun he => h (he ▸ List.mem_cons_self)
    rw [List.cons_append, literalsFrom_cons, openStep_some, if_neg hc,
      if_neg (fun he => hc (Option.some.inj he).symm), List.nil_append]
    simp only [Option.isSome_some, ↓reduceIte]
    rw [ih (fun hm => h (List.mem_cons_of_mem _ hm)), List.append_assoc]
    rfl

/-- Only quotes are left open. -/
theorem isQuote_of_quoteAfter (ho : ∀ d, opened = some d → isQuote d = true)
    (h : quoteAfter opened x = some q) : isQuote q = true := by
  induction x generalizing opened with
  | nil => exact ho q h
  | cons c x ih =>
    refine ih (fun d hd => ?_) h
    cases opened with
    | none =>
      rw [openStep_none] at hd
      split at hd
      · cases hd
        assumption
      · cases hd
    | some e =>
      rw [openStep_some] at hd
      split at hd
      · cases hd
      · exact ho d hd

/-- Behind a closed text the literals begin anew. -/
theorem literalsFrom_append (h : quoteAfter opened x = none) (read y : List Char) :
    literalsFrom opened read (x ++ y) = literalsFrom opened read x ++ literals y := by
  induction x generalizing opened read with
  | nil =>
    obtain rfl : opened = none := h
    exact literalsFrom_none read y
  | cons c x ih =>
    rw [List.cons_append, literalsFrom_cons, literalsFrom_cons, ih h, List.append_assoc]

theorem literals_append (h : ClosesQuotes x) (y : List Char) :
    literals (x ++ y) = literals x ++ literals y := literalsFrom_append h [] y

theorem literals_plain (h : ∀ c ∈ w, isQuote c = false) : literals w = [] := by
  induction w with
  | nil => rfl
  | cons c w ih =>
    rw [literals, literalsFrom_cons, openStep_plain (h c List.mem_cons_self), literalsFrom_none]
    exact ih fun d hd => h d (List.mem_cons_of_mem _ hd)

/-- A literal, and what stands behind it. -/
theorem literals_literal (hq : isQuote q = true) (hw : q ∉ w) (y : List Char) :
    literals (q :: (w ++ q :: y)) = (q :: (w ++ [q])) :: literals y := by
  rw [literals, literalsFrom_cons, openStep_none, if_pos hq]
  simp only [reduceCtorEq, ↓reduceIte, Option.isSome_none, Bool.false_eq_true, List.nil_append]
  rw [literalsFrom_inside hw, literalsFrom_cons, openStep_some, if_pos rfl, if_pos rfl,
    literalsFrom_none]
  rfl

end Steps

/-! ## Closed texts -/

namespace ClosesQuotes

variable {c q : Char} {w x y : List Char}

theorem nil : ClosesQuotes [] := rfl

theorem plain (h : ∀ c ∈ w, isQuote c = false) : ClosesQuotes w := quoteAfter_plain h

theorem append_iff (h : ClosesQuotes x) : ClosesQuotes (x ++ y) ↔ ClosesQuotes y := by
  rw [ClosesQuotes, quoteAfter_append, h, ClosesQuotes]

theorem cons_iff (h : isQuote c = false) : ClosesQuotes (c :: x) ↔ ClosesQuotes x := by
  rw [ClosesQuotes, quoteAfter_cons, openStep_plain h, ClosesQuotes]

/-- What stands behind the last quote closes nothing. -/
theorem of_append_plain (h : ClosesQuotes (x ++ w)) (hw : ∀ c ∈ w, isQuote c = false) :
    ClosesQuotes x := by
  rw [ClosesQuotes, quoteAfter_append] at h
  cases hx : quoteAfter none x with
  | none => exact hx
  | some q =>
    have hq : isQuote q = true := isQuote_of_quoteAfter (fun d hd => by cases hd) hx
    have hm : q ∉ w := by
      intro hm
      rw [hw q hm] at hq
      cases hq
    rw [hx, quoteAfter_inside hm] at h
    cases h

theorem literal_iff (hq : isQuote q = true) (hw : q ∉ w) :
    ClosesQuotes (q :: (w ++ q :: y)) ↔ ClosesQuotes y := by
  rw [ClosesQuotes, quoteAfter_cons, openStep_none, if_pos hq, quoteAfter_append,
    quoteAfter_inside hw, quoteAfter_cons, openStep_some, if_pos rfl, ClosesQuotes]

/-- Closed texts are made of literals and of what stands between them. -/
theorem induct {P : List Char → Prop} (gap : ∀ w, (∀ c ∈ w, isQuote c = false) → P w)
    (literal : ∀ (w : List Char) (q : Char) (body rest : List Char),
      (∀ c ∈ w, isQuote c = false) → isQuote q = true → q ∉ body → P rest →
        P (w ++ q :: (body ++ q :: rest)))
    (h : ClosesQuotes x) : P x := by
  induction hn : x.length using Nat.strongRecOn generalizing x with
  | ind n ih =>
    subst hn
    have hsplit := List.takeWhile_append_dropWhile (p := fun c => !isQuote c) (l := x)
    have hw : ∀ c ∈ x.takeWhile fun c => !isQuote c, isQuote c = false := by
      intro c hc
      simpa using List.mem_takeWhile_imp hc
    cases hd : x.dropWhile fun c => !isQuote c with
    | nil =>
      rw [hd, List.append_nil] at hsplit
      exact hsplit ▸ gap _ hw
    | cons q rest =>
      have hne : (x.dropWhile fun c => !isQuote c) ≠ [] := by rw [hd]; exact List.cons_ne_nil _ _
      have hq := List.head_dropWhile_not (fun c => !isQuote c) hne
      simp only [hd, List.head_cons, Bool.not_eq_false'] at hq
      rw [hd] at hsplit
      rw [← hsplit, append_iff (.plain hw), ClosesQuotes, quoteAfter_cons, openStep_none,
        if_pos hq] at h
      have hclose : q ∈ rest := by
        by_contra hm
        rw [quoteAfter_inside hm] at h
        cases h
      obtain ⟨body, after, rfl, hbody⟩ := List.eq_append_cons_of_mem hclose
      rw [quoteAfter_append, quoteAfter_inside hbody, quoteAfter_cons, openStep_some,
        if_pos rfl] at h
      have hl := congrArg List.length hsplit
      simp only [List.length_append, List.length_cons] at hl
      rw [← hsplit]
      exact literal _ q body after hw hq hbody (ih after.length (by omega) h rfl)

end ClosesQuotes

/-! ## Texts with the same literals -/

/-- Two texts that go on with the same literals, the first of which may have begun, and
leave the same quote open. The second has no backslash that is new. -/
structure SameLiterals (opened : Option Char) (x y : List Char) : Prop where
  literals : ∀ read, literalsFrom opened read x = literalsFrom opened read y
  quote : quoteAfter opened x = quoteAfter opened y
  bare : '\\' ∉ x → '\\' ∉ y

theorem isQuote_of_delimits {c : Char} (h : delimits c = false) : isQuote c = false :=
  (Bool.or_eq_false_iff.mp h).1

theorem not_mem_of_delimits {w : List Char} (h : ∀ c ∈ w, delimits c = false) : '\\' ∉ w := by
  intro hm
  cases h _ hm

namespace SameLiterals

variable {opened : Option Char} {w w' x x' y y' z : List Char}

theorem refl (opened : Option Char) (x : List Char) : SameLiterals opened x x :=
  ⟨fun _ => rfl, rfl, id⟩

theorem trans (h : SameLiterals opened x y) (h' : SameLiterals opened y z) :
    SameLiterals opened x z :=
  ⟨fun read => (h.literals read).trans (h'.literals read), h.quote.trans h'.quote,
    fun hx => h'.bare (h.bare hx)⟩

theorem cons {c : Char} (h : SameLiterals (openStep opened c) x y) :
    SameLiterals opened (c :: x) (c :: y) := by
  refine ⟨fun read => ?_, h.quote, fun hx => ?_⟩
  · rw [literalsFrom_cons, literalsFrom_cons, h.literals]
  · rw [List.mem_cons, not_or] at hx ⊢
    exact ⟨hx.1, h.bare hx.2⟩

theorem prepend (h : SameLiterals (quoteAfter opened w) x y) :
    SameLiterals opened (w ++ x) (w ++ y) := by
  induction w generalizing opened with
  | nil => exact h
  | cons c w ih => exact (ih h).cons

theorem append (hx : SameLiterals opened x x') (hc : quoteAfter opened x = none)
    (hy : SameLiterals none y y') : SameLiterals opened (x ++ y) (x' ++ y') := by
  have hc' : quoteAfter opened x' = none := hx.quote ▸ hc
  refine ⟨fun read => ?_, ?_, fun hxy => ?_⟩
  · rw [literalsFrom_append hc, literalsFrom_append hc', hx.literals]
    exact congrArg _ (hy.literals [])
  · rw [quoteAfter_append, quoteAfter_append, hc, hc', hy.quote]
  · rw [List.mem_append, not_or] at hxy ⊢
    exact ⟨hx.bare hxy.1, hy.bare hxy.2⟩

/-- Between literals any other characters may stand. -/
theorem plain (hw : ∀ c ∈ w, delimits c = false) (hw' : ∀ c ∈ w', delimits c = false) :
    SameLiterals none w w' := by
  have hquote : ∀ c ∈ w, isQuote c = false := fun c hc => isQuote_of_delimits (hw c hc)
  have hquote' : ∀ c ∈ w', isQuote c = false := fun c hc => isQuote_of_delimits (hw' c hc)
  refine ⟨fun read => ?_, ?_, fun _ => not_mem_of_delimits hw'⟩
  · rw [literalsFrom_none, literalsFrom_none, literals_plain hquote, literals_plain hquote']
  · rw [quoteAfter_plain hquote, quoteAfter_plain hquote']

theorem plain_append (h : SameLiterals none x y) (hw : ∀ c ∈ w, delimits c = false)
    (hw' : ∀ c ∈ w', delimits c = false) : SameLiterals none (w ++ x) (w' ++ y) :=
  (plain hw hw').append (quoteAfter_plain fun c hc => isQuote_of_delimits (hw c hc)) h

/-- Outside the literals other characters may stand, inside they stay. -/
theorem uncovered (h : SameLiterals opened x y) (hopened : ∀ d, opened = some d → isQuote d = true)
    (hw : ∀ c ∈ w, delimits c = false) (hw' : ∀ c ∈ w', delimits c = false) :
    SameLiterals opened (w ++ x) ((if opened.isSome then w else w') ++ y) := by
  cases opened with
  | none => exact h.plain_append hw hw'
  | some q =>
    have hm : q ∉ w := by
      intro hm
      have hquote := hopened q rfl
      rw [isQuote_of_delimits (hw q hm)] at hquote
      cases hquote
    refine prepend ?_
    rwa [quoteAfter_inside hm]

end SameLiterals

/-! ## Splitting -/

section Split

variable {q : Quotes} {c : Char} {x : List Char}

namespace Quotes.IsBare

theorem start : ({} : Quotes).IsBare := ⟨nofun, nofun⟩

theorem opened_step (h : q.IsBare) (c : Char) : (q.step c).opened = openStep q.opened c := by
  have hprevious := h.previous
  cases ho : q.opened with
  | none => simp [Quotes.step, openStep, ho]
  | some d => simp [Quotes.step, openStep, ho, hprevious]

theorem step (h : q.IsBare) (hc : c ≠ '\\') : (q.step c).IsBare := by
  refine ⟨fun he => hc (Option.some.inj he), fun d hd => ?_⟩
  rw [h.opened_step] at hd
  exact isQuote_of_quoteAfter h.opened (show quoteAfter q.opened [c] = some d from hd)

theorem run (h : q.IsBare) (hx : '\\' ∉ x) :
    (x.foldl Quotes.step q).IsBare ∧ (x.foldl Quotes.step q).opened = quoteAfter q.opened x := by
  induction x generalizing q with
  | nil => exact ⟨h, rfl⟩
  | cons c x ih =>
    rw [List.mem_cons, not_or] at hx
    obtain ⟨hbare, hopened⟩ := ih (h.step (Ne.symm hx.1)) hx.2
    rw [h.opened_step] at hopened
    exact ⟨hbare, hopened⟩

end Quotes.IsBare

/-- No piece ends in a literal, and the first goes on with the one that is open. -/
theorem literals_splitFrom {separators : List Char} {s : Scan} (h : s.quotes.IsBare)
    (hx : '\\' ∉ x) (hc : quoteAfter s.quotes.opened x = none) :
    ∃ p rest, splitFrom separators s x = p :: rest ∧ quoteAfter s.quotes.opened p.text = none ∧
      (∀ r ∈ rest, ClosesQuotes r.text) ∧
      ∀ read, literalsFrom s.quotes.opened read x =
        literalsFrom s.quotes.opened read p.text ++ rest.flatMap fun r => literals r.text := by
  induction x generalizing s with
  | nil => exact ⟨⟨[], none⟩, [], rfl, hc, nofun, fun read => (List.append_nil _).symm⟩
  | cons c x ih =>
    rw [List.mem_cons, not_or] at hx
    have hstep : (s.step c).quotes.opened = openStep s.quotes.opened c := h.opened_step c
    obtain ⟨p, rest, hsplit, hp, hrest, hliterals⟩ :=
      ih (s := s.step c) (h.step (Ne.symm hx.1)) hx.2 (by rw [hstep]; exact hc)
    rw [hstep] at hp hliterals
    rw [splitFrom]
    split
    · -- a separator is no quote, and stands outside the literals
      rename_i hcut
      obtain ⟨hopened, hquote, -, -⟩ := Scan.of_cuts hcut
      rw [hopened, openStep_plain hquote] at hp hliterals
      refine ⟨⟨[], some c⟩, p :: rest, by rw [hsplit], by rw [hopened]; rfl, ?_, fun read => ?_⟩
      · intro r hr
        rcases List.mem_cons.mp hr with rfl | hr
        · exact hp
        · exact hrest r hr
      · rw [hopened, literalsFrom_cons, openStep_plain hquote, literalsFrom_none,
          List.flatMap_cons]
        exact hliterals []
    · refine ⟨⟨c :: p.text, p.after⟩, rest, by rw [hsplit]; rfl, hp, hrest, fun read => ?_⟩
      rw [literalsFrom_cons, literalsFrom_cons, hliterals, List.append_assoc]

/-- The pieces of a closed text are closed, and have its literals. -/
theorem literals_split (h : ClosesQuotes x) (hx : '\\' ∉ x) (separators : List Char) :
    (∀ p ∈ split separators x, ClosesQuotes p.text) ∧
      literals x = (split separators x).flatMap fun p => literals p.text := by
  have hstart : ({} : Scan).quotes.IsBare := .start
  obtain ⟨p, rest, hsplit, hp, hrest, hliterals⟩ :=
    @literals_splitFrom x separators {} hstart hx h
  rw [split, hsplit]
  refine ⟨fun r hr => ?_, by rw [List.flatMap_cons]; exact hliterals []⟩
  rcases List.mem_cons.mp hr with rfl | hr
  · exact hp
  · exact hrest r hr

end Split

end ElementWrappers.TypeExpr
