import Mathlib
import ElementWrappers.Proofs.KeptWords
import ElementWrappers.Proofs.LiteralSpacing

/-!
# Literals that a resolved type keeps

Past the normalizing of white space no literal is touched, wherever it stands: names are
qualified and renamed around it. This needs that the bracket that is taken for the one of a
generic type stands outside the literals (`AnglesOutside`), which it does if no literal has
an angle bracket. Literals that are tidy come out as they were written, and no others:
`resolve_literals`.
-/

namespace ElementWrappers.TypeExpr

/-- The second text has the literals of the first, which are closed. -/
structure KeepsLiterals (x y : List Char) : Prop where
  closes : ClosesQuotes x
  same : SameLiterals none x y

/-- Wherever a text, or a part that is qualified on its own, is read as a generic type, the
bracket of its arguments stands outside the literals. -/
inductive AnglesOutside : List Char → Prop
  | of {text : List Char}
      (base : ∀ base arguments, Shape.of (Text.trim text) = .generic base arguments →
        ClosesQuotes base)
      (parts : ∀ part ∈ (Shape.of (Text.trim text)).inner, AnglesOutside part) : AnglesOutside text

section Delimits

variable {c : Char} {w : List Char}

theorem delimits_nil : ∀ c ∈ ([] : List Char), delimits c = false :=
  fun _ h => absurd h List.not_mem_nil

theorem delimits_of_all (h : w.all (fun c => !delimits c) = true) : ∀ c ∈ w, delimits c = false :=
  fun c hc => Bool.not_eq_true' _ ▸ List.all_eq_true.mp h c hc

theorem delimits_of_isBlank (h : Text.isBlank c = true) : delimits c = false := by
  obtain ⟨-, hquote, hslash, -⟩ := Before.isNeutral_of_isBlank h
  simp [delimits, hquote, hslash]

theorem mem_of_delimits (h : delimits c = true) : c ∈ ['\'', '"', '\x60', '\\'] := by
  simp only [delimits, isQuote, Bool.or_eq_true, beq_iff_eq] at h
  rcases h with ((rfl | rfl) | rfl) | rfl <;> simp

/-- A class of characters without quotes and the backslash. -/
theorem delimits_of_class {p : Char → Bool}
    (hp : ['\'', '"', '\x60', '\\'].all (fun c => !p c) = true) (h : p c = true) :
    delimits c = false := by
  refine Bool.eq_false_iff.mpr fun hd => ?_
  have hnot := List.all_eq_true.mp hp c (mem_of_delimits hd)
  rw [h] at hnot
  cases hnot

theorem delimits_of_isName (h : isName w = true) : ∀ c ∈ w, delimits c = false := by
  intro c hc
  cases w with
  | nil => cases hc
  | cons d rest =>
    rw [isName, Bool.and_eq_true] at h
    rcases List.mem_cons.mp hc with rfl | hc
    · exact delimits_of_class (by decide) h.1
    · exact delimits_of_class (by decide) (List.all_eq_true.mp h.2 c hc)

end Delimits

namespace KeepsLiterals

variable {x x' y y' z w : List Char} {c : Char}

theorem refl (h : ClosesQuotes x) : KeepsLiterals x x := ⟨h, .refl none x⟩

theorem trans (h : KeepsLiterals x y) (h' : KeepsLiterals y z) : KeepsLiterals x z :=
  ⟨h.closes, h.same.trans h'.same⟩

theorem closes_right (h : KeepsLiterals x y) : ClosesQuotes y := h.same.quote.symm.trans h.closes

theorem literals_eq (h : KeepsLiterals x y) : literals y = literals x := (h.same.literals []).symm

theorem append (hx : KeepsLiterals x x') (hy : KeepsLiterals y y') :
    KeepsLiterals (x ++ y) (x' ++ y') :=
  ⟨hx.closes.append_iff.mpr hy.closes, hx.same.append hx.closes hy.same⟩

/-- What is no part of a literal may become something else that is none. -/
theorem plain (hw : ∀ c ∈ w, delimits c = false) (hx : ∀ c ∈ x, delimits c = false) :
    KeepsLiterals w x :=
  ⟨.plain fun c hc => isQuote_of_delimits (hw c hc), .plain hw hx⟩

theorem cut (hx : KeepsLiterals x x') (hc : delimits c = false) (hy : KeepsLiterals y y') :
    KeepsLiterals (x ++ c :: y) (x' ++ c :: y') := by
  have hchar : ∀ d ∈ [c], delimits d = false := fun d hd => List.mem_singleton.mp hd ▸ hc
  exact hx.append ((plain hchar hchar).append hy)

theorem enclosed (hx : KeepsLiterals x x') {o e : Char} (ho : delimits o = false)
    (he : delimits e = false) : KeepsLiterals (o :: (x ++ [e])) (o :: (x' ++ [e])) :=
  (refl .nil).cut ho (hx.cut he (refl .nil))

/-- Characters that belong to no literal stay. -/
theorem unquoted (h : w.all (fun c => !delimits c) = true) : KeepsLiterals w w :=
  plain (delimits_of_all h) (delimits_of_all h)

theorem joins {separators : List Char} (hs : ∀ c ∈ separators, delimits c = false) :
    Joins KeepsLiterals separators := by
  intro x x' y y' gap gap' c hc hg hg' hx hy
  have hblank : ∀ {gap : List Char}, (∀ d ∈ gap, Text.isBlank d = true) → KeepsLiterals [] gap :=
    fun hg => plain delimits_nil fun d hd => delimits_of_isBlank (hg d hd)
  have hleft := hx.append (hblank hg)
  have hright := (hblank hg').append hy
  rw [List.append_nil] at hleft
  rw [← List.append_assoc]
  exact hleft.cut (hs c hc) hright

theorem trim (h : ClosesQuotes x) : KeepsLiterals x (Text.trim x) := by
  obtain ⟨gap, gap', hg, hg', he⟩ := Text.exists_trim_append x
  have hgap : ∀ c ∈ gap, delimits c = false := fun c hc => delimits_of_isBlank (hg c hc)
  have hgap' : ∀ c ∈ gap', delimits c = false := fun c hc => delimits_of_isBlank (hg' c hc)
  have hclosed : ClosesQuotes (Text.trim x) := by
    rw [he, ClosesQuotes.append_iff (.plain fun c hc => isQuote_of_delimits (hgap c hc))] at h
    exact h.of_append_plain fun c hc => isQuote_of_delimits (hgap' c hc)
  have hkept := (plain hgap delimits_nil).append ((refl hclosed).append (plain hgap' delimits_nil))
  rw [← he, List.append_nil] at hkept
  exact hkept

end KeepsLiterals

/-! ## Parts -/

section Parts

variable {x : List Char}

/-- The literals of the parts are among those of the text. -/
structure IsPart (x part : List Char) : Prop where
  closes : ClosesQuotes part
  literals : literals part ⊆ literals x

/-- A text between two brackets. -/
theorem IsPart.of_enclosed {inner : List Char} {o e : Char} (ho : isQuote o = false)
    (he : isQuote e = false) (h : ClosesQuotes (o :: (inner ++ [e]))) :
    IsPart (o :: (inner ++ [e])) inner := by
  have hend : ∀ c ∈ [e], isQuote c = false := fun c hc => List.mem_singleton.mp hc ▸ he
  have hinner : ClosesQuotes inner := ((ClosesQuotes.cons_iff ho).mp h).of_append_plain hend
  refine ⟨hinner, ?_⟩
  rw [← List.singleton_append, literals_append (.plain fun c hc => List.mem_singleton.mp hc ▸ ho),
    literals_append hinner]
  exact fun l hl => List.mem_append_right _ (List.mem_append_left _ hl)

theorem IsPart.trans {y z : List Char} (h : IsPart x y) (h' : IsPart y z) : IsPart x z :=
  ⟨h'.closes, fun _ hl => h.literals (h'.literals hl)⟩

theorem isPart_of_mem_split (h : ClosesQuotes x) (hx : '\\' ∉ x) {separators : List Char}
    {p : Piece} (hp : p ∈ split separators x) : IsPart x p.text := by
  obtain ⟨hclosed, hliterals⟩ := literals_split h hx separators
  refine ⟨hclosed p hp, fun l hl => ?_⟩
  rw [hliterals]
  exact List.mem_flatMap.mpr ⟨p, hp, hl⟩

theorem isPart_of_mem_listItems (h : ClosesQuotes x) (hx : '\\' ∉ x) {item : List Char}
    (hi : item ∈ listItems x) : IsPart x item := by
  obtain ⟨p, hp, rfl⟩ := List.mem_map.mp hi
  exact isPart_of_mem_split h hx hp

/-- No literal is torn apart, if the base of a generic type does not end in one. -/
theorem Shape.Describes.isPart {s : Shape} (h : s.Describes x) (hc : ClosesQuotes x)
    (hx : '\\' ∉ x) (hbase : ∀ base arguments, s = .generic base arguments → ClosesQuotes base)
    {part : List Char} (hp : part ∈ s.inner) : IsPart x part := by
  have hbare : ∀ {o e : Char} {inner : List Char}, x = o :: (inner ++ [e]) → '\\' ∉ inner := by
    rintro o e inner he hm
    exact hx (he ▸ List.mem_cons_of_mem _ (List.mem_append_left _ hm))
  cases h with
  | fixed | object | path | name => cases hp
  | members =>
    obtain ⟨p, hm, rfl⟩ := List.mem_map.mp hp
    exact isPart_of_mem_split hc hx hm
  | array parts =>
    obtain rfl := List.mem_singleton.mp hp
    rw [parts] at hc ⊢
    have hitem := hc.of_append_plain fun c hm =>
      isQuote_of_delimits (delimits_of_all (by decide) c hm)
    exact ⟨hitem, by rw [literals_append hitem]; exact List.subset_append_left _ _⟩
  | group parts =>
    obtain rfl := List.mem_singleton.mp hp
    rw [parts] at hc ⊢
    exact .of_enclosed (by decide) (by decide) hc
  | @tuple inner parts =>
    have hinner := hbare parts
    rw [parts] at hc ⊢
    have henclosed := IsPart.of_enclosed (by decide) (by decide) hc
    exact henclosed.trans (isPart_of_mem_listItems henclosed.closes hinner hp)
  | @generic base inner parts =>
    have hclosed := hbase base _ rfl
    have hbare : '\\' ∉ inner := fun hm => hx (by rw [parts]; simp [hm])
    rw [parts] at hc ⊢
    rw [hclosed.append_iff] at hc
    have hleft : IsPart (base ++ '<' :: (inner ++ ['>'])) base :=
      ⟨hclosed, by rw [literals_append hclosed]; exact List.subset_append_left _ _⟩
    have hright : IsPart (base ++ '<' :: (inner ++ ['>'])) ('<' :: (inner ++ ['>'])) :=
      ⟨hc, by rw [literals_append hclosed]; exact List.subset_append_right _ _⟩
    rcases List.mem_cons.mp hp with rfl | hp
    · exact hleft
    · have henclosed := IsPart.of_enclosed (by decide) (by decide) hc
      exact (hright.trans henclosed).trans (isPart_of_mem_listItems henclosed.closes hbare hp)

theorem literals_trim (h : ClosesQuotes x) : literals (Text.trim x) = literals x :=
  (KeepsLiterals.trim h).literals_eq

/-- A character that does not close the open literal belongs to it. -/
theorem mem_literals_of_open {opened : Option Char} {q c : Char} (y : List Char)
    (h : quoteAfter opened x = some q) (hc : c ≠ q) (read : List Char) :
    ∃ l ∈ literalsFrom opened read (x ++ c :: y), c ∈ l := by
  have hprefix : ∀ read, ∃ l ∈ literalsFrom (some q) read y, read <+: l := by
    induction y with
    | nil => exact fun read => ⟨read, List.mem_singleton_self _, List.prefix_refl _⟩
    | cons d y ih =>
      intro read
      rw [literalsFrom_cons, openStep_some]
      by_cases hd : d = q
      · rw [if_pos (congrArg some hd.symm)]
        exact ⟨read ++ [d], List.mem_append_left _ (List.mem_singleton_self _),
          List.prefix_append _ _⟩
      · rw [if_neg hd, if_neg (fun he => hd (Option.some.inj he).symm), List.nil_append]
        obtain ⟨l, hl, hp⟩ := ih (read ++ [d])
        exact ⟨l, hl, (List.prefix_append _ _).trans hp⟩
  induction x generalizing opened read with
  | nil =>
    obtain rfl : opened = some q := h
    obtain ⟨l, hl, hp⟩ := hprefix (read ++ [c])
    refine ⟨l, ?_, hp.subset (by simp)⟩
    rw [List.nil_append, literalsFrom_cons, openStep_some, if_neg hc]
    exact List.mem_append_right _ hl
  | cons d x ih =>
    obtain ⟨l, hl, hm⟩ := ih h (if opened.isSome then read ++ [d] else [d])
    rw [List.cons_append, literalsFrom_cons]
    exact ⟨l, List.mem_append_right _ hl, hm⟩

/-- If no literal has an angle bracket, the one of a generic type stands outside. -/
theorem anglesOutside_of_literals (hc : ClosesQuotes x) (hx : '\\' ∉ x)
    (h : ∀ l ∈ literals x, '<' ∉ l) : AnglesOutside x := by
  induction hn : x.length using Nat.strongRecOn generalizing x with
  | ind n ih =>
    subst hn
    have hkept := KeepsLiterals.trim hc
    have hbare := hkept.same.bare hx
    have hd := Shape.describes_of (Text.trim x)
    have hbase : ∀ base arguments, Shape.of (Text.trim x) = .generic base arguments →
        ClosesQuotes base := by
      intro base arguments hs
      rw [hs] at hd
      cases hd with
      | generic parts =>
        cases hq : quoteAfter none base with
        | none => exact hq
        | some q =>
          have hquote := isQuote_of_quoteAfter (fun d hd => by cases hd) hq
          have hne : '<' ≠ q := (ne_of_isQuote hquote (by decide)).symm
          obtain ⟨l, hl, hm⟩ := mem_literals_of_open _ hq hne []
          rw [← parts] at hl
          exact absurd hm (h l (literals_trim hc ▸ hl))
    refine .of hbase fun part hp => ?_
    have hpart := hd.isPart hkept.closes_right hbare hbase hp
    have hl := Nat.lt_of_lt_of_le (length_of_mem_inner hp) (Text.length_trim_le x)
    refine ih _ hl hpart.closes (fun hm => hbare (hd.subset hp hm)) (fun l hl => h l ?_) rfl
    rw [← literals_trim hc]
    exact hpart.literals hl

end Parts

/-! ## Qualifying -/

section Qualify

variable {scope : Scope} {x w : List Char}

theorem delimits_stem (hclass : ∀ c ∈ scope.className.toList, delimits c = false) :
    ∀ c ∈ scope.stem, delimits c = false := by
  intro c hc
  rcases List.mem_cons.mp hc with rfl | hc
  · rfl
  · exact hclass c hc

/-- A local name is the name, behind a stem or not. -/
theorem localName_eq_append (hclass : ∀ c ∈ scope.className.toList, delimits c = false)
    (w : List Char) : ∃ u, (∀ c ∈ u, delimits c = false) ∧ scope.localName w = u ++ w := by
  unfold Scope.localName
  split
  · exact ⟨[], delimits_nil, rfl⟩
  · exact ⟨scope.stem, delimits_stem hclass, rfl⟩

theorem delimits_qualifyName (hclass : ∀ c ∈ scope.className.toList, delimits c = false)
    (hw : isName w = true) : ∀ c ∈ scope.qualifyName w, delimits c = false := by
  have hname := delimits_of_isName hw
  unfold Scope.qualifyName
  split
  · exact hname
  · obtain ⟨u, hu, he⟩ := localName_eq_append hclass w
    rw [he]
    intro c hc
    exact (List.mem_append.mp hc).elim (hu c) (hname c)

/-- Names after colons are renamed outside the literals. -/
theorem sameLiterals_renameMembers {g : List Char → List Char}
    (hg : ∀ w, isName w = true → ∀ c ∈ g w, delimits c = false) {q : Quotes} (hq : q.IsBare)
    (hx : '\\' ∉ x) : SameLiterals q.opened x (renameMembers g q x) := by
  have hcolon := hq.step (c := ':') (by decide)
  induction q, x using renameMembers.induct with
  | case1 q => rw [renameMembers.eq_def]; exact .refl _ []
  | case2 q rest hn ih =>
    rw [List.mem_cons, not_or] at hx
    rw [renameMembers_noName hn]
    exact .cons (hq.opened_step ':' ▸ ih hcolon hx.2 (hcolon.step (by decide)))
  | case3 q rest blanks name after hn hl ih =>
    obtain ⟨rfl, hblanks, hname, -⟩ := of_leadingName? hn
    have hafter : '\\' ∉ after := fun hm => hx (by simp [hm])
    have hrest := ih hcolon hafter (hcolon.step (by decide))
    have hplain : ∀ c ∈ ':' :: blanks ++ name, delimits c = false := by
      intro c hc
      rcases List.mem_cons.mp hc with rfl | hc
      · rfl
      · exact (List.mem_append.mp hc).elim (fun h => delimits_of_isBlank (hblanks c h))
          (delimits_of_isName hname c)
    have hrenamed : ∀ c ∈ ':' :: ' ' :: g name, delimits c = false := by
      intro c hc
      rcases List.mem_cons.mp hc with rfl | hc
      · rfl
      rcases List.mem_cons.mp hc with rfl | hc
      · rfl
      · exact hg name hname c hc
    have htext : ':' :: (blanks ++ (name ++ after)) = ':' :: blanks ++ name ++ after := by simp
    have hcovers : q.covers ':' = q.opened.isSome := Bool.or_false _
    rw [hq.opened_step, openStep_eq hq.opened rfl] at hrest
    rw [renameMembers_name hn, htext, hcovers]
    exact hrest.uncovered hq.opened hplain hrenamed
  | case4 q c rest hc ih =>
    rw [List.mem_cons, not_or] at hx
    have hstep := hq.step (Ne.symm hx.1)
    rw [renameMembers_char hc]
    exact .cons (hq.opened_step c ▸ ih hstep hx.2 (hstep.step (by decide)))

/-- Whatever form a text has, its renamed parts are put together with its literals. -/
theorem Shape.Describes.keepsLiterals
    (hclass : ∀ c ∈ scope.className.toList, delimits c = false) (hc : ClosesQuotes x)
    (hx : '\\' ∉ x) {f : List Char → List Char} {s : Shape} (h : s.Describes x)
    (hf : ∀ part ∈ s.inner, KeepsLiterals part (f part)) :
    KeepsLiterals x (s.renamed scope x f) := by
  have hmarks : Joins KeepsLiterals ['|', '&'] := KeepsLiterals.joins (delimits_of_all (by decide))
  have hlists : Joins KeepsLiterals [','] := KeepsLiterals.joins (delimits_of_all (by decide))
  cases h with
  | fixed => exact .refl hc
  | members =>
    exact hmarks.members fun p hp => hf p.text (List.mem_map_of_mem hp)
  | object =>
    exact ⟨hc, sameLiterals_renameMembers (fun w => delimits_qualifyName hclass) .start hx⟩
  | @array item parts =>
    rw [parts]
    exact (hf item List.mem_cons_self).append (.unquoted (by decide))
  | @group inner parts =>
    rw [parts]
    exact (hf inner List.mem_cons_self).enclosed (by decide) (by decide)
  | tuple parts =>
    rw [parts]
    exact (hlists.listItems hf).enclosed (by decide) (by decide)
  | @generic base inner parts =>
    rw [parts]
    have harguments : ∀ item ∈ listItems inner, KeepsLiterals item (f item) :=
      fun item hi => hf item (List.mem_cons_of_mem _ hi)
    exact (hf base List.mem_cons_self).cut (by decide)
      ((hlists.listItems harguments).append (.unquoted (by decide)))
  | @path first rest isName parts dot =>
    have hname := delimits_of_isName isName
    rw [parts, ClosesQuotes.append_iff (.plain fun c hm => isQuote_of_delimits (hname c hm))] at hc
    rw [parts]
    exact (KeepsLiterals.plain hname (delimits_qualifyName hclass isName)).append (.refl hc)
  | name isName => exact .plain (delimits_of_isName isName) (delimits_qualifyName hclass isName)

/-- Qualifying keeps the literals. -/
theorem keepsLiterals_qualify (hclass : ∀ c ∈ scope.className.toList, delimits c = false)
    (h : AnglesOutside x) (hc : ClosesQuotes x) (hx : '\\' ∉ x) :
    KeepsLiterals x (qualify scope x) := by
  induction h with
  | @of text base parts ih =>
    have hkept := KeepsLiterals.trim hc
    have hbare := hkept.same.bare hx
    have hd := Shape.describes_of (Text.trim text)
    rw [qualify_eq]
    refine hkept.trans (hd.keepsLiterals hclass hkept.closes_right hbare fun part hp => ?_)
    have hpart := hd.isPart hkept.closes_right hbare base hp
    exact ih part hp hpart.closes fun hm => hbare (hd.subset hp hm)

end Qualify

/-! ## Renaming -/

section Rename

variable {scope : Scope} {name u x before : List Char} {q : Quotes}

theorem opened_of_use {c : Char} {use : Bool} (h : (!q.covers c && use) = true) :
    q.opened = none := by
  rw [Bool.and_eq_true, Bool.not_eq_true'] at h
  exact (Quotes.of_covers_eq_false h.1).1

/-- An occurrence outside the literals may be replaced by a name that has it at the end. -/
theorem sameLiterals_occurrence {opened : Option Char} {y z : List Char} {use : Bool}
    (hu : ∀ c ∈ u, delimits c = false) (huse : use = true → opened = none)
    (h : SameLiterals (quoteAfter opened name) y z) :
    SameLiterals opened (name ++ y) ((if use then u ++ name else name) ++ z) := by
  split
  · rename_i hreplaced
    obtain rfl := huse hreplaced
    rw [List.append_assoc]
    exact h.prepend.plain_append (w := []) delimits_nil hu
  · exact h.prepend

/-- Renaming a name to one that has it at the end keeps the literals, also where the name
has quotes itself. -/
theorem sameLiterals_renameFrom (hu : ∀ c ∈ u, delimits c = false) (hq : q.IsBare) (hx : '\\' ∉ x)
    (hc : quoteAfter q.opened x = none) :
    SameLiterals q.opened x (renameFrom name (u ++ name) before q 0 true x) := by
  induction hn : x.length using Nat.strongRecOn generalizing x before q with
  | ind n ih =>
    subst hn
    cases x with
    | nil =>
      rw [renameFrom]
      split
      · rename_i h
        rw [Bool.and_eq_true, List.isEmpty_iff] at h
        obtain ⟨rfl, -⟩ := h
        have hopened : q.opened = none := hc
        rw [hopened, List.append_nil]
        exact .plain delimits_nil hu
      · exact .refl _ []
    | cons c rest =>
      have hcopied : SameLiterals q.opened (c :: rest)
          (c :: renameFrom name (u ++ name) (c :: before) (q.step c) 0 true rest) := by
        rw [List.mem_cons, not_or] at hx
        have hrest := @ih rest.length (Nat.lt_succ_self _) rest (c :: before) (q.step c)
          (hq.step (Ne.symm hx.1)) hx.2 (by rw [hq.opened_step]; exact hc) rfl
        rw [hq.opened_step] at hrest
        exact hrest.cons
      cases name with
      | nil =>
        have hall := @sameLiterals_occurrence [] u _ _ _ _ hu
          (@opened_of_use q c (isUse before (c :: rest))) hcopied
        rw [List.append_nil] at hall ⊢
        rw [renameFrom_empty]
        exact hall
      | cons d tail =>
        by_cases hp : d :: tail <+: c :: rest
        · obtain ⟨more, he⟩ := hp
          have hlength := congrArg List.length he
          simp only [List.length_append, List.length_cons] at hlength
          rw [← he] at hx hc ⊢
          rw [List.mem_append, not_or] at hx
          obtain ⟨hbare, hopened⟩ := hq.run hx.1
          have hrest := @ih more.length (by rw [List.length_cons]; omega) more
            ((d :: tail).reverse ++ before) _ hbare hx.2
            (by rw [hopened, ← quoteAfter_append]; exact hc) rfl
          rw [hopened] at hrest
          rw [renameFrom_found]
          exact sameLiterals_occurrence hu opened_of_use hrest
        · rw [renameFrom_other hp]
          exact hcopied

/-- Renaming any names keeps the literals. -/
theorem keepsLiterals_renameAll (hclass : ∀ c ∈ scope.className.toList, delimits c = false)
    (names : List String) (hc : ClosesQuotes x) (hx : '\\' ∉ x) :
    KeepsLiterals x (renameAll scope names x) := by
  induction names generalizing x with
  | nil => exact .refl hc
  | cons name names ih =>
    obtain ⟨u, hu, he⟩ := localName_eq_append hclass name.toList
    have hkept : KeepsLiterals x (rename name.toList (scope.localName name.toList) x) := by
      rw [he]
      exact ⟨hc, sameLiterals_renameFrom hu .start hx hc⟩
    exact hkept.trans (ih hkept.closes_right (hkept.same.bare hx))

end Rename

/-! ## Resolving -/

section Resolve

variable {scope : Scope} {written : String}

/-- Normalizing rewrites the white space in each literal. -/
theorem literals_normalize {x : List Char} (h : ClosesQuotes x) :
    ClosesQuotes (normalize x) ∧ literals (normalize x) = (literals x).map respaced := by
  obtain ⟨hclosed, hliterals⟩ := sparesQuotes_respaced.literals_eq h
  have hkept := KeepsLiterals.trim hclosed
  exact ⟨hkept.closes_right, hkept.literals_eq.trans hliterals⟩

theorem not_mem_normalize {x : List Char} (hx : '\\' ∉ x) : '\\' ∉ normalize x :=
  Text.not_mem_trim fun hm => (sparesQuotes_respaced.mem hm).elim (absurd · (by decide)) hx

/-- Qualifying and renaming keep the literals that normalizing leaves. -/
theorem keepsLiterals_resolve (hc : ClosesQuotes written.toList) (hx : '\\' ∉ written.toList)
    (hclass : ∀ c ∈ scope.className.toList, delimits c = false)
    (hangles : AnglesOutside (normalize written.toList)) :
    KeepsLiterals (normalize written.toList) (resolve scope written).text.toList := by
  have hclosed := (literals_normalize hc).1
  have hbare := not_mem_normalize hx
  rw [resolve.eq_def]
  simp only
  split
  · rename_i hempty
    rw [List.isEmpty_iff.mp hempty]
    exact .plain delimits_nil (delimits_of_all (by decide))
  split
  · rw [String.toList_ofList]
    exact .refl hclosed
  · have hqualified := keepsLiterals_qualify hclass hangles hclosed hbare
    rw [String.toList_ofList]
    exact hqualified.trans
      (keepsLiterals_renameAll hclass _ hqualified.closes_right (hqualified.same.bare hbare))

/-- All the literals come out, in order and closed, with nothing but their white space
rewritten; so exactly the tidy ones come out as they were. Which references there are
does not matter. -/
theorem resolve_literals (closed : ClosesQuotes written.toList) (bare : '\\' ∉ written.toList)
    (className : ∀ c ∈ scope.className.toList, delimits c = false)
    (angles : AnglesOutside (normalize written.toList)) :
    ClosesQuotes (resolve scope written).text.toList ∧
      literals (resolve scope written).text.toList = (literals written.toList).map respaced ∧
      (literals (resolve scope written).text.toList = literals written.toList ↔
        ∀ l ∈ literals written.toList, IsTidy l) := by
  have hkept := keepsLiterals_resolve closed bare className angles
  have hliterals := hkept.literals_eq.trans (literals_normalize closed).2
  refine ⟨hkept.closes_right, hliterals, ?_⟩
  rw [hliterals]
  exact map_respaced_eq_iff closed

end Resolve

/-- Literals in a member, an argument and a bracket, of which one has a comma. -/
def quotedItems : String := "\x7b kind: 'a:Item', at: Item \x7d | Box<\"x,y\" | Item['(Item']>"

theorem resolve_literals_quotedItems :
    ClosesQuotes (resolve (itemScope "X") quotedItems).text.toList ∧
      literals (resolve (itemScope "X") quotedItems).text.toList =
        ["'a:Item'".toList, "\"x, y\"".toList, "'(Item'".toList] ∧
      literals (resolve (itemScope "X") quotedItems).text.toList ≠ literals quotedItems.toList := by
  have hclosed : ClosesQuotes quotedItems.toList := by decide +kernel
  have hbare : '\\' ∉ quotedItems.toList := by decide +kernel
  have hnormal := literals_normalize hclosed
  have hangles : AnglesOutside (normalize quotedItems.toList) := by
    refine anglesOutside_of_literals hnormal.1 (not_mem_normalize hbare) ?_
    rw [hnormal.2]
    decide +kernel
  obtain ⟨hcloses, hliterals, hsame⟩ := @resolve_literals (itemScope "X") quotedItems hclosed hbare
    (delimits_of_all (by decide)) hangles
  refine ⟨hcloses, hliterals.trans (by decide +kernel), fun h => ?_⟩
  have htidy := hsame.mp h "\"x,y\"".toList (by decide +kernel)
  revert htidy
  decide

/-- The literals of an expression come out as they were written. -/
def Scope.PreservesLiterals (scope : Scope) (written : String) : Prop :=
  literals (resolve scope written).text.toList = literals written.toList

instance (scope : Scope) (written : String) : Decidable (scope.PreservesLiterals written) :=
  inferInstanceAs (Decidable
    (literals (resolve scope written).text.toList = literals written.toList))

/-- White space is normalized in literals too, and where an angle bracket in a literal is
taken for the one of a generic type, names in the literal are renamed. -/
theorem not_preservesLiterals_quoted :
    (ClosesQuotes "'a,b' | 'c  d'".toList ∧ '\\' ∉ "'a,b' | 'c  d'".toList ∧
      ¬ (itemScope "X").PreservesLiterals "'a,b' | 'c  d'") ∧
    ClosesQuotes "T extends '<Item, x' ? Item : Box<'>'>".toList ∧
      '\\' ∉ "T extends '<Item, x' ? Item : Box<'>'>".toList ∧
      (∀ l ∈ literals "T extends '<Item, x' ? Item : Box<'>'>".toList, IsTidy l) ∧
      ¬ (itemScope "X").PreservesLiterals "T extends '<Item, x' ? Item : Box<'>'>" := by
  decide +kernel

end ElementWrappers.TypeExpr
