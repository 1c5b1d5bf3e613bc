import Mathlib
import ElementWrappers.Proofs.Literals
import ElementWrappers.Proofs.Spacing

/-!
# White space in literals

Normalizing a type expression does not tell literals from the rest: it rewrites each on its
own, `literals_respaced`, and leaves those alone that are tidy, `respaced_eq_iff`.
-/

namespace ElementWrappers.TypeExpr

/-- White space in one line, before the blanks around the text are trimmed. -/
def respaced (text : List Char) : List Char := spaceCommas (collapse (joinLines text))

/-- Neither of two neighbours is for collapsing, and a comma has its space. -/
def AreTidy (c d : Char) : Prop :=
  ¬ (Text.isBlank c = true ∧ Text.isBlank d = true) ∧ (c = ',' → d = ' ')

instance (c d : Char) : Decidable (AreTidy c d) :=
  inferInstanceAs (Decidable
    (¬ (Text.isBlank c = true ∧ Text.isBlank d = true) ∧ (c = ',' → d = ' ')))

/-- No line breaks, no two blanks side by side, and one space behind each comma that is not
the last character. -/
structure IsTidy (text : List Char) : Prop where
  lines : '\n' ∉ text
  pairs : text.IsChain AreTidy

theorem isTidy_iff {text : List Char} : IsTidy text ↔ '\n' ∉ text ∧ text.IsChain AreTidy :=
  ⟨fun h => ⟨h.1, h.2⟩, fun h => ⟨h.1, h.2⟩⟩

instance (text : List Char) : Decidable (IsTidy text) := decidable_of_iff _ isTidy_iff.symm

/-- A rewriting of white space, before a quote and behind it on its own. -/
structure SparesQuotes (f : List Char → List Char) : Prop where
  nil : f [] = []
  cut : ∀ (x : List Char) {q : Char} (y : List Char), isQuote q = true →
    f (x ++ q :: y) = f x ++ q :: f y
  mem : ∀ {x : List Char} {c : Char}, c ∈ f x → c = ' ' ∨ c ∈ x

/-! ## Rewriting between quotes -/

section Cuts

variable {c q : Char} {x : List Char}

theorem isBlank_of_isQuote (h : isQuote q = true) : Text.isBlank q = false := by
  simp only [isQuote, Bool.or_eq_true, beq_iff_eq] at h
  rcases h with (rfl | rfl) | rfl <;> rfl

theorem dropWhile_isBlank_cut (hq : Text.isBlank q = false) (x y : List Char) :
    (x ++ q :: y).dropWhile Text.isBlank = x.dropWhile Text.isBlank ++ q :: y := by
  induction x with
  | nil => exact List.dropWhile_cons_of_neg (by rw [hq]; exact Bool.false_ne_true)
  | cons c x ih =>
    rw [List.cons_append, List.dropWhile_cons, List.dropWhile_cons]
    split
    · exact ih
    · rfl

theorem ne_of_isQuote {d : Char} (h : isQuote q = true) (hd : isQuote d = false) : q ≠ d := by
  rintro rfl
  rw [h] at hd
  cases hd

/-- One character more, which is a space or was there. -/
theorem mem_of_cons {d : Char} {y out : List Char} (hd : d = ' ' ∨ d ∈ x)
    (hout : c ∈ out → c = ' ' ∨ c ∈ y) (hy : y ⊆ x) (hc : c ∈ d :: out) : c = ' ' ∨ c ∈ x := by
  rcases List.mem_cons.mp hc with rfl | hm
  · exact hd
  · exact (hout hm).imp_right fun h => hy h

theorem joinLines_cut (hq : isQuote q = true) (x y : List Char) :
    joinLines (x ++ q :: y) = joinLines x ++ q :: joinLines y := by
  have hfeed : q ≠ '\n' := ne_of_isQuote hq (by decide)
  have hreturn : q ≠ '\r' := ne_of_isQuote hq (by decide)
  induction x using joinLines.induct with
  | case1 rest ih =>
    rw [joinLines, List.cons_append, List.cons_append, joinLines, ih, List.cons_append]
  | case2 rest ih => rw [joinLines, List.cons_append, joinLines, ih, List.cons_append]
  | case3 c rest h1 h2 ih =>
    have h1' : ∀ more, c = '\r' → rest ++ q :: y = '\n' :: more → False := by
      intro more hc he
      cases rest with
      | nil => exact hfeed (List.cons.inj he).1
      | cons d rest => exact h1 rest hc (by rw [(List.cons.inj he).1])
    rw [List.cons_append, joinLines, ih, joinLines, List.cons_append]
    · exact h1
    · exact h2
    · exact h1'
    · exact h2
  | case4 =>
    rw [List.nil_append, joinLines, joinLines, List.nil_append]
    · exact fun _ h _ => hreturn h
    · exact hfeed

theorem mem_joinLines (h : c ∈ joinLines x) : c = ' ' ∨ c ∈ x := by
  induction x using joinLines.induct with
  | case1 rest ih =>
    rw [joinLines] at h
    exact mem_of_cons (.inl rfl) ih (fun d hd => by simp [hd]) h
  | case2 rest ih =>
    rw [joinLines] at h
    exact mem_of_cons (.inl rfl) ih (List.subset_cons_self _ _) h
  | case3 d rest h1 h2 ih =>
    rw [joinLines] at h
    · exact mem_of_cons (.inr List.mem_cons_self) ih (List.subset_cons_self _ _) h
    · exact h1
    · exact h2
  | case4 => cases h

theorem sparesQuotes_joinLines : SparesQuotes joinLines :=
  ⟨rfl, fun x _ y hq => joinLines_cut hq x y, mem_joinLines⟩

theorem collapse_cut (hq : Text.isBlank q = false) (x y : List Char) :
    collapse (x ++ q :: y) = collapse x ++ q :: collapse y := by
  induction x using collapse.induct with
  | case1 => rw [collapse_nil, List.nil_append, Spaced.collapse_cons hq, List.nil_append]
  | case2 c =>
    have hpair : ¬ (Text.isBlank c && Text.isBlank q) = true := by simp [hq]
    rw [collapse_singleton, List.singleton_append, collapse_pair hpair, Spaced.collapse_cons hq,
      List.singleton_append]
  | case3 c d rest hb _ ih =>
    rw [collapse_run hb, List.cons_append, List.cons_append, collapse_run hb,
      dropWhile_isBlank_cut hq, ih, List.cons_append]
  | case4 c d rest hb ih =>
    rw [collapse_pair hb, List.cons_append, List.cons_append, collapse_pair hb,
      ← List.cons_append, ih, List.cons_append]

theorem mem_collapse (h : c ∈ collapse x) : c = ' ' ∨ c ∈ x := by
  induction x using collapse.induct with
  | case1 => rw [collapse_nil] at h; cases h
  | case2 d => rw [collapse_singleton] at h; exact .inr h
  | case3 d e rest hb _ ih =>
    rw [collapse_run hb] at h
    refine mem_of_cons (.inl rfl) ih (fun f hf => ?_) h
    exact List.mem_cons_of_mem _ (List.mem_cons_of_mem _ ((List.dropWhile_sublist _).subset hf))
  | case4 d e rest hb ih =>
    rw [collapse_pair hb] at h
    exact mem_of_cons (.inr List.mem_cons_self) ih (List.subset_cons_self _ _) h

theorem sparesQuotes_collapse : SparesQuotes collapse :=
  ⟨collapse_nil, fun x _ y hq => collapse_cut (isBlank_of_isQuote hq) x y, mem_collapse⟩

theorem spaceCommas_append_cons (hq : Text.isBlank q = false) (x y : List Char) :
    spaceCommas (x ++ q :: y) = spaceCommas x ++ spaceCommas (q :: y) := by
  induction x using spaceCommas.induct with
  | case1 => rw [spaceCommas, List.nil_append, List.nil_append]
  | case2 rest _ ih =>
    rw [spaceCommas, if_pos rfl, List.cons_append, spaceCommas, if_pos rfl,
      dropWhile_isBlank_cut hq, ih, List.cons_append, List.cons_append]
  | case3 c rest hc ih =>
    rw [Spaced.spaceCommas_cons hc, List.cons_append, Spaced.spaceCommas_cons hc, ih,
      List.cons_append]

theorem spaceCommas_cut (hq : Text.isBlank q = false) (hcomma : q ≠ ',') (x y : List Char) :
    spaceCommas (x ++ q :: y) = spaceCommas x ++ q :: spaceCommas y := by
  rw [spaceCommas_append_cons hq, Spaced.spaceCommas_cons hcomma]

theorem mem_spaceCommas (h : c ∈ spaceCommas x) : c = ' ' ∨ c ∈ x := by
  induction x using spaceCommas.induct with
  | case1 => rw [spaceCommas] at h; cases h
  | case2 rest _ ih =>
    rw [spaceCommas, if_pos rfl] at h
    refine mem_of_cons (.inr List.mem_cons_self) (mem_of_cons (.inl rfl) ih ?_)
      (List.subset_cons_self _ _) h
    exact (List.dropWhile_sublist _).subset
  | case3 d rest hd ih =>
    rw [Spaced.spaceCommas_cons hd] at h
    exact mem_of_cons (.inr List.mem_cons_self) ih (List.subset_cons_self _ _) h

theorem sparesQuotes_spaceCommas : SparesQuotes spaceCommas :=
  ⟨by rw [spaceCommas],
    fun x _ y hq => spaceCommas_cut (isBlank_of_isQuote hq) (ne_of_isQuote hq (by decide)) x y,
    mem_spaceCommas⟩

end Cuts

namespace SparesQuotes

variable {f g : List Char → List Char} {x : List Char}

theorem comp (hf : SparesQuotes f) (hg : SparesQuotes g) : SparesQuotes fun x => f (g x) := by
  refine ⟨by rw [hg.nil, hf.nil], fun x q y hq => by rw [hg.cut x y hq, hf.cut _ _ hq],
    fun {x c} hc => ?_⟩
  rcases hf.mem hc with he | hm
  · exact .inl he
  · exact hg.mem hm

theorem not_mem (hf : SparesQuotes f) {q : Char} (hq : isQuote q = true) (h : q ∉ x) : q ∉ f x := by
  intro hm
  exact (hf.mem hm).elim (ne_of_isQuote hq (by decide)) h

theorem plain (hf : SparesQuotes f) (h : ∀ c ∈ x, isQuote c = false) :
    ∀ c ∈ f x, isQuote c = false := by
  intro c hc
  rcases hf.mem hc with rfl | hm
  · rfl
  · exact h c hm

/-- What it makes of a closed text is closed, and its literals are rewritten one by one. -/
theorem literals_eq (hf : SparesQuotes f) (h : ClosesQuotes x) :
    ClosesQuotes (f x) ∧ literals (f x) = (literals x).map f := by
  refine ClosesQuotes.induct (P := fun x => ClosesQuotes (f x) ∧
    literals (f x) = (literals x).map f) (fun w hw => ?gap)
    (fun w q body rest hw hq hbody ih => ?literal) h
  case gap =>
    have hw' := hf.plain hw
    exact ⟨.plain hw', by rw [literals_plain hw', literals_plain hw, List.map_nil]⟩
  case literal =>
    have hw' := hf.plain hw
    have hbody' := hf.not_mem hq hbody
    have htext : f (w ++ q :: (body ++ q :: rest)) = f w ++ q :: (f body ++ q :: f rest) := by
      rw [hf.cut _ _ hq, hf.cut _ _ hq]
    have hliteral : f (q :: (body ++ [q])) = q :: (f body ++ [q]) := by
      have hquotes : f ([] ++ q :: (body ++ q :: [])) = f [] ++ q :: (f body ++ q :: f []) := by
        rw [hf.cut [] _ hq, hf.cut body [] hq]
      rwa [hf.nil] at hquotes
    rw [htext]
    refine ⟨(ClosesQuotes.append_iff (.plain hw')).mpr
      ((ClosesQuotes.literal_iff hq hbody').mpr ih.1), ?_⟩
    rw [literals_append (.plain hw'), literals_append (.plain hw), literals_plain hw',
      literals_plain hw, literals_literal hq hbody', literals_literal hq hbody, ih.2,
      List.nil_append, List.nil_append, List.map_cons, hliteral]

end SparesQuotes

theorem sparesQuotes_respaced : SparesQuotes respaced :=
  sparesQuotes_spaceCommas.comp (sparesQuotes_collapse.comp sparesQuotes_joinLines)

/-! ## Tidy texts -/

section Tidy

variable {c : Char} {x : List Char}

/-- Not both are blanks. -/
def AreApart (c d : Char) : Prop := ¬ (Text.isBlank c = true ∧ Text.isBlank d = true)

theorem not_mem_joinLines (x : List Char) : '\n' ∉ joinLines x := by
  induction x using joinLines.induct with
  | case1 rest ih | case2 rest ih =>
    rw [joinLines, List.mem_cons, not_or]
    exact ⟨by decide, ih⟩
  | case3 c rest h1 h2 ih =>
    rw [joinLines, List.mem_cons, not_or]
    · exact ⟨fun h => h2 h.symm, ih⟩
    · exact h1
    · exact h2
  | case4 => exact List.not_mem_nil

/-- The first character is a blank where it was one. -/
theorem isBlank_of_head?_collapse (h : (collapse x).head? = some c) (hc : Text.isBlank c = true) :
    ∃ d, x.head? = some d ∧ Text.isBlank d = true := by
  cases x using collapse.induct with
  | case1 => rw [collapse_nil] at h; cases h
  | case2 d => rw [collapse_singleton] at h; exact ⟨c, h, hc⟩
  | case3 d e rest hb _ => exact ⟨d, rfl, (Bool.and_eq_true .. ▸ hb).1⟩
  | case4 d e rest hb =>
    rw [collapse_pair hb] at h
    exact ⟨c, h, hc⟩

theorem isChain_collapse (x : List Char) : (collapse x).IsChain AreApart := by
  induction x using collapse.induct with
  | case1 => rw [collapse_nil]; exact .nil
  | case2 c => rw [collapse_singleton]; exact .singleton c
  | case3 c d rest hb _ ih =>
    rw [collapse_run hb, List.isChain_cons]
    refine ⟨fun e he hblank => ?_, ih⟩
    obtain ⟨f, hf, hblank'⟩ := isBlank_of_head?_collapse he hblank.2
    rw [Text.isBlank_of_dropWhile hf] at hblank'
    cases hblank'
  | case4 c d rest hb ih =>
    rw [collapse_pair hb, List.isChain_cons]
    refine ⟨fun e he hblank => ?_, ih⟩
    obtain ⟨f, hf, hblank'⟩ := isBlank_of_head?_collapse he hblank.2
    cases hf
    exact hb (Bool.and_eq_true .. ▸ ⟨hblank.1, hblank'⟩)

theorem head?_spaceCommas (x : List Char) : (spaceCommas x).head? = x.head? := by
  cases x with
  | nil => rw [spaceCommas]
  | cons c rest =>
    rw [spaceCommas]
    split
    · rename_i hc
      rw [hc]
      rfl
    · rfl

theorem isChain_spaceCommas (h : x.IsChain AreApart) : (spaceCommas x).IsChain AreTidy := by
  induction x using spaceCommas.induct with
  | case1 => rw [spaceCommas]; exact .nil
  | case2 rest _ ih =>
    have hrest : (rest.dropWhile Text.isBlank).IsChain AreApart :=
      (List.isChain_of_isChain_cons h).suffix (List.dropWhile_suffix _)
    rw [spaceCommas, if_pos rfl, List.isChain_cons_cons, List.isChain_cons]
    refine ⟨⟨by decide, fun _ => rfl⟩, fun d hd => ⟨fun hblank => ?_, (absurd · (by decide))⟩,
      ih hrest⟩
    rw [head?_spaceCommas] at hd
    rw [Text.isBlank_of_dropWhile hd] at hblank
    cases hblank.2
  | case3 c rest hc ih =>
    rw [List.isChain_cons] at h
    rw [Spaced.spaceCommas_cons hc, List.isChain_cons, head?_spaceCommas]
    exact ⟨fun d hd => ⟨h.1 d hd, fun he => absurd he hc⟩, ih h.2⟩

theorem isTidy_respaced (x : List Char) : IsTidy (respaced x) := by
  refine ⟨fun hm => ?_, isChain_spaceCommas (isChain_collapse _)⟩
  have hjoined := (mem_spaceCommas hm).elim (absurd · (by decide)) mem_collapse
  exact hjoined.elim (absurd · (by decide)) (not_mem_joinLines x)

theorem collapse_eq (h : x.IsChain AreApart) : collapse x = x := by
  induction x using collapse.induct with
  | case1 => exact collapse_nil
  | case2 c => exact collapse_singleton
  | case3 c d rest hb _ _ =>
    rw [List.isChain_cons_cons] at h
    exact absurd (Bool.and_eq_true .. ▸ hb) h.1
  | case4 c d rest hb ih => rw [collapse_pair hb, ih (List.isChain_of_isChain_cons h)]

theorem spaceCommas_eq (h : x.IsChain AreTidy) (hl : x.getLast? ≠ some ',') : spaceCommas x = x := by
  induction x using spaceCommas.induct with
  | case1 => rw [spaceCommas]
  | case2 rest _ ih =>
    cases rest with
    | nil => exact absurd rfl hl
    | cons d rest =>
      rw [List.isChain_cons_cons] at h
      obtain ⟨⟨-, hspace⟩, hrest⟩ := h
      obtain rfl := hspace rfl
      rw [List.isChain_cons] at hrest
      have hdrop : (' ' :: rest).dropWhile Text.isBlank = rest := by
        rw [List.dropWhile_cons_of_pos (by decide)]
        cases rest with
        | nil => rfl
        | cons e rest =>
          have hblank : ¬ Text.isBlank e = true := fun he => (hrest.1 e rfl).1 ⟨by decide, he⟩
          exact List.dropWhile_cons_of_neg hblank
      rw [hdrop] at ih
      rw [spaceCommas, if_pos rfl, hdrop, ih hrest.2 ?_]
      intro he
      cases rest with
      | nil => cases he
      | cons e rest => exact hl he
  | case3 c rest hc ih =>
    rw [Spaced.spaceCommas_cons hc]
    cases rest with
    | nil => rw [spaceCommas]
    | cons d rest => rw [ih (List.isChain_of_isChain_cons h) hl]

/-- Only what is not tidy is rewritten. -/
theorem respaced_eq_iff (hl : x.getLast? ≠ some ',') : respaced x = x ↔ IsTidy x := by
  constructor
  · intro h
    exact h ▸ isTidy_respaced x
  · intro h
    have hlines : ∀ c ∈ x, c ≠ '\n' := fun c hc he => h.lines (he ▸ hc)
    rw [respaced, Spaced.joinLines_eq hlines, collapse_eq (h.pairs.imp fun _ _ hp => hp.1),
      spaceCommas_eq h.pairs hl]

end Tidy

/-- A literal ends with a quote. -/
theorem getLast?_of_mem_literals {x l : List Char} (h : ClosesQuotes x) (hl : l ∈ literals x) :
    l.getLast? ≠ some ',' := by
  refine ClosesQuotes.induct (P := fun x => l ∈ literals x → l.getLast? ≠ some ',')
    (fun w hw hm => ?gap) (fun w q body rest hw hq hbody ih hm => ?literal) h hl
  case gap =>
    rw [literals_plain hw] at hm
    cases hm
  case literal =>
    rw [literals_append (.plain hw), literals_plain hw, literals_literal hq hbody, List.nil_append,
      List.mem_cons] at hm
    rcases hm with rfl | hm
    · rw [← List.cons_append, List.getLast?_concat]
      exact fun he => ne_of_isQuote hq (by decide) (Option.some.inj he)
    · exact ih hm

/-- Rewriting white space keeps the literals of a closed text if they are tidy. -/
theorem map_respaced_eq_iff {x : List Char} (h : ClosesQuotes x) :
    (literals x).map respaced = literals x ↔ ∀ l ∈ literals x, IsTidy l := by
  have hsame : (literals x).map respaced = (literals x).map id ↔ ∀ l ∈ literals x, respaced l = l :=
    List.map_inj_left
  rw [List.map_id] at hsame
  exact hsame.trans (forall₂_congr fun l hl => respaced_eq_iff (getLast?_of_mem_literals h hl))

end ElementWrappers.TypeExpr
