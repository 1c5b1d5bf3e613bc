import Mathlib
import ElementWrappers.Proofs.AccessorGroups
import ElementWrappers.Proofs.LiteralValues

/-!
# Selectors of value accessors

The selectors of a group are put between quotes as they are, and the targets are put
wherever their mark stands, also inside a selector. So the selector of a directive is
read as the joined selectors exactly if nothing in them needs an escape or is taken
for the mark (`readSelector_source_iff`). `quotesFaithfully_iff` says it for all
configurations, together with lists of quoted names.
-/

namespace ElementWrappers

open Text

namespace AccessorGroup

/-! ## Filling a mark -/

section Fill

variable {mark : List Char}

/-- A text without the mark stays. Otherwise the filling stands where the first mark
stood. -/
theorem fill_cases (hm : mark ≠ []) (filling text : List Char) :
    (¬ mark <:+: text ∧ fill mark filling text = text) ∨
      ∃ x y, x ++ mark <+: text ∧ fill mark filling text = x ++ (filling ++ y) := by
  induction text with
  | nil => exact .inl ⟨fun h => hm (List.infix_nil.mp h), rfl⟩
  | cons c rest ih =>
    by_cases hp : mark <+: c :: rest
    · refine .inr ⟨[], fillFrom mark filling (mark.length - 1) rest, hp, ?_⟩
      rw [fill, fillFrom, if_pos (List.isPrefixOf_iff_prefix.mpr hp), List.nil_append]
    · have hfill : fill mark filling (c :: rest) = c :: fill mark filling rest := by
        rw [fill, fillFrom, if_neg fun h => hp (List.isPrefixOf_iff_prefix.mp h)]
        rfl
      rw [hfill]
      obtain ⟨hnone, hrest⟩ | ⟨x, y, hx, hrest⟩ := ih
      · refine .inl ⟨fun h => ?_, congrArg _ hrest⟩
        exact (List.infix_cons_iff.mp h).elim hp hnone
      · exact .inr ⟨c :: x, y, List.cons_prefix_cons.mpr ⟨rfl, hx⟩, congrArg _ hrest⟩

theorem fill_eq_self (hm : mark ≠ []) (filling : List Char) {text : List Char}
    (h : ¬ mark <:+: text) : fill mark filling text = text := by
  obtain ⟨-, he⟩ | ⟨x, y, hx, -⟩ := fill_cases hm filling text
  · exact he
  · exact absurd ((List.suffix_append x mark).isInfix.trans hx.isInfix) h

/-- Between quotes, a text that is filled with something quoted stands for itself only if
it has no mark. -/
theorem readBody_fill_iff (hm : mark ≠ []) {filling text tail rest : List Char}
    (hf : filling.head? = some '\'') :
    Literal.readBody (fill mark filling text ++ '\'' :: tail) = some (Literal.units text, rest) ↔
      (Literal.IsQuotable text ∧ ¬ mark <:+: text) ∧ rest = tail := by
  constructor
  · intro h
    obtain ⟨hnone, he⟩ | ⟨x, y, hx, he⟩ := fill_cases hm filling text
    · rw [he, Literal.readBody_iff] at h
      exact ⟨⟨h.1, hnone⟩, h.2⟩
    · -- the literal ends at the filling or before it, where the text goes on with its mark
      obtain ⟨quoted, rfl⟩ := List.head?_eq_some_iff.mp hf
      obtain ⟨p, t, hp, hpx, hfirst⟩ :=
        Literal.exists_first_quote x (quoted ++ y ++ '\'' :: tail)
      have hread : fill mark ('\'' :: quoted) text ++ '\'' :: tail = p ++ '\'' :: t := by
        rw [he, ← hfirst]
        simp
      rw [hread] at h
      have hprefix : p <+: text := hpx.trans ((List.prefix_append x mark).trans hx)
      obtain ⟨rfl, -⟩ := Literal.eq_of_readBody hp hprefix h
      have hlength := hx.length_le.trans hpx.length_le
      rw [List.length_append] at hlength
      exact absurd (List.length_eq_zero_iff.mp (by omega)) hm
  · rintro ⟨⟨hquotable, hnone⟩, rfl⟩
    rw [fill_eq_self hm filling hnone]
    exact Literal.readBody_of_isQuotable hquotable rest

end Fill

/-! ## Selectors -/

/-- A selector stands for itself: nothing in it needs an escape or is taken for the mark
of the targets. -/
def Stands (text : List Char) : Prop := Literal.IsQuotable text ∧ ¬ targetsMark <:+: text

theorem targetsMark_ne_nil : targetsMark ≠ [] := by decide_cbv

theorem stands_nil : Stands [] :=
  ⟨List.forall_mem_nil _, fun h => targetsMark_ne_nil (List.infix_nil.mp h)⟩

theorem stands_join (x y : List Char) :
    Stands (x ++ (", ".toList ++ y)) ↔ Stands x ∧ Stands y := by
  have hcomma : ',' ∉ targetsMark := by decide_cbv
  have hblank : ' ' ∉ targetsMark := by decide_cbv
  have hgap : Literal.IsQuotable ", ".toList := by simp [Literal.IsQuotable, Literal.needsEscape]
  have hinfix : targetsMark <:+: x ++ (", ".toList ++ y) ↔
      targetsMark <:+: x ∨ targetsMark <:+: y := by
    have hjoin : x ++ (", ".toList ++ y) = x ++ ',' :: ([] ++ ' ' :: y) := by simp
    rw [hjoin, infix_append_cons_iff hcomma, infix_append_cons_iff hblank,
      or_iff_right stands_nil.2]
  rw [Stands, hinfix, not_or, Literal.isQuotable_append, Literal.isQuotable_append]
  constructor
  · rintro ⟨⟨hx, -, hy⟩, hnx, hny⟩
    exact ⟨⟨hx, hnx⟩, hy, hny⟩
  · rintro ⟨⟨hx, hnx⟩, hy, hny⟩
    exact ⟨⟨hx, hgap, hy⟩, hnx, hny⟩

/-- What begins the selector property of a directive. -/
def selectorMark : String := "  selector: "

/-- The value of the selector property of a directive, if it is one literal. -/
def readSelector (source : String) : Option (List Nat) :=
  let found := (linesOf source).dropWhile fun line => !startsWith selectorMark line
  match Literal.read (("\n".intercalate found).toList.drop selectorMark.length) with
  | some (value, ',' :: _) => some value
  | _ => none

section Selectors

variable {g : AccessorGroup}

theorem exists_source_selector (g : AccessorGroup) : ∃ head rest, g.source =
    sourceText (head ++ (selectorMark ++ ("'" ++ g.selector ++ "',")) :: rest) ∧
      (head.flatMap linesOf).any (startsWith selectorMark) = false := by
  have hmark : "  selector: '" = selectorMark ++ "'" := by simp [selectorMark]
  have hs : g.source = sourceText ([_, _, _, _, _, _, _] ++
      ("  selector: '" ++ g.selector ++ "',") :: _) := rfl
  rw [hmark, String.append_assoc, String.append_assoc] at hs
  refine ⟨_, _, hs, ?_⟩
  decide_cbv

/-- Reading begins at the quote in front of the selectors. -/
theorem exists_readSelector_source (g : AccessorGroup) : ∃ tail, readSelector g.source =
    match Literal.readBody (g.selector.toList ++ '\'' :: ',' :: tail) with
    | some (value, ',' :: _) => some value
    | _ => none := by
  obtain ⟨head, rest, hs, hhead⟩ := exists_source_selector g
  have hmark : '\n' ∉ selectorMark.toList := by decide_cbv
  have hskip : ∀ line ∈ head.flatMap linesOf, (!startsWith selectorMark line) = true :=
    fun line hl => by simpa using List.any_eq_false.mp hhead line hl
  obtain ⟨first, more, hlines, hfirst⟩ :=
    exists_linesOf_front hmark ("'" ++ g.selector ++ "'," ++ "\n" ++ sourceText rest)
  have hsource : linesOf g.source = head.flatMap linesOf ++ first :: more := by
    rw [hs, linesOf_sourceText, List.flatMap_append, List.flatMap_cons, List.append_assoc,
      List.append_assoc, ← linesOf_sourceText, ← linesOf_append, ← hlines]
    simp only [String.append_assoc]
  have hfound : (linesOf g.source).dropWhile (fun line => !startsWith selectorMark line) =
      first :: more := by
    rw [hsource, List.dropWhile_append_of_pos hskip,
      List.dropWhile_cons_of_neg (by rw [hfirst]; decide)]
  have htext : ("\n".intercalate (first :: more)).toList = selectorMark.toList ++
      '\'' :: (g.selector.toList ++ '\'' :: ',' :: ("\n" ++ sourceText rest).toList) := by
    rw [← hlines, intercalate_linesOf]
    simp
  refine ⟨("\n" ++ sourceText rest).toList, ?_⟩
  rw [readSelector, hfound, htext, ← String.length_toList, List.drop_left]
  rfl

theorem head?_host (h : g.targets ≠ []) : g.host.toList.head? = some '\'' := by
  obtain ⟨t, rest, ht⟩ := List.exists_cons_of_ne_nil h
  have hentry : (hostEntry t).toList.head? = some '\'' := by simp [hostEntry]
  rw [host, ht]
  cases rest with
  | nil => simpa using hentry
  | cons next rest =>
    rw [List.map_cons, List.map_cons, String.intercalate_cons_cons, String.append_assoc,
      String.toList_append, List.head?_append, hentry, Option.some_or]

/-- The selector of a directive is a literal for the joined selectors exactly if each of
them stands for itself. -/
theorem readSelector_source_iff (h : g.targets ≠ []) : readSelector g.source =
    some (Literal.units (", ".intercalate g.selectors).toList) ↔
      ∀ s ∈ g.selectors, Stands s.toList := by
  obtain ⟨tail, hread⟩ := exists_readSelector_source g
  have hselector : g.selector.toList =
      fill targetsMark g.host.toList (", ".intercalate g.selectors).toList := String.toList_ofList
  have hbody : ∀ rest, Literal.readBody (g.selector.toList ++ '\'' :: ',' :: tail) =
      some (Literal.units (", ".intercalate g.selectors).toList, rest) ↔
        Stands (", ".intercalate g.selectors).toList ∧ rest = ',' :: tail := by
    intro rest
    rw [hselector]
    exact readBody_fill_iff targetsMark_ne_nil (head?_host h)
  rw [hread, ← intercalate_iff_forall stands_nil stands_join g.selectors]
  constructor
  · intro hv
    split at hv
    · rename_i value rest hsome
      obtain rfl := Option.some.inj hv
      exact ((hbody _).mp hsome).1
    · cases hv
  · intro hstands
    rw [(hbody _).mpr ⟨hstands, rfl⟩]
    rfl

end Selectors

end AccessorGroup

/-! ## Quoting -/

/-- What is written between quotes stands for what was given: the selector of each
directive for its selectors, and each literal of a list for its name. -/
structure QuotesFaithfully (configs : List AccessorConfig) (names : List String) : Prop where
  selectors : ∀ g ∈ AccessorGroup.ofConfigs configs, AccessorGroup.readSelector g.source =
    some (Literal.units (", ".intercalate g.selectors).toList)
  names : Literal.readList (Naming.quotedList names) =
    some (names.map fun name => Literal.units name.toList)

section Quoting

open AccessorGroup

theorem readSelector_ofConfigs_iff (configs : List AccessorConfig) :
    (∀ g ∈ ofConfigs configs, readSelector g.source =
      some (Literal.units (", ".intercalate g.selectors).toList)) ↔
        ∀ c ∈ configs, ∀ s ∈ c.selectors.toList, Stands s.toList := by
  constructor
  · intro h c hc s hs
    obtain ⟨g, hg, hk⟩ := exists_group hc
    exact (readSelector_source_iff (targets_ne_nil hg)).mp (h g hg) s
      ((mem_selectors_iff hg).mpr ⟨c, hc, hk.symm, hs⟩)
  · intro h g hg
    refine (readSelector_source_iff (targets_ne_nil hg)).mpr fun s hs => ?_
    obtain ⟨c, hc, -, hs⟩ := (mem_selectors_iff hg).mp hs
    exact h c hc s hs

/-- Quoting is faithful exactly for what stands for itself: nothing is escaped. -/
theorem quotesFaithfully_iff (configs : List AccessorConfig) (names : List String) :
    QuotesFaithfully configs names ↔
      (∀ c ∈ configs, ∀ s ∈ c.selectors.toList, Stands s.toList) ∧
        ∀ name ∈ names, Literal.IsQuotable name.toList := by
  rw [← readSelector_ofConfigs_iff, ← Literal.readList_quotedList_iff]
  exact ⟨fun ⟨hs, hn⟩ => ⟨hs, hn⟩, fun ⟨hs, hn⟩ => ⟨hs, hn⟩⟩

/-- The quotes of an attribute selector end the literal that it is put into. -/
theorem not_quotesFaithfully_attribute :
    ¬ QuotesFaithfully [⟨.one "my-input[type='text']", "myChange", "value", .text⟩] [] := by
  intro h
  have hstands := (readSelector_ofConfigs_iff _).mp h.selectors _ (List.mem_singleton_self _)
    "my-input[type='text']" (List.mem_singleton_self _)
  have hquote : '\'' ∈ "my-input[type='text']".toList := by decide_cbv
  exact hstands.1.quote_not_mem hquote

end Quoting

end ElementWrappers
