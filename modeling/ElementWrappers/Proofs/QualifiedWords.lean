import Mathlib
import ElementWrappers.Proofs.Respacing
import ElementWrappers.Proofs.TypeTokens

/-!
# Words that qualifying renames

Qualifying follows the form of a type. Whatever the form, a word that it renames is
one at which a whole type may begin and end, or stands behind a colon with a brace
somewhere before, and no word changes its spot: `qualifies_qualify`.
-/

namespace ElementWrappers.TypeExpr

/-- A word that qualifying may rename. -/
def Occurrence.IsExposed (o : Occurrence) : Prop :=
  o.before.lead = .colon ∧ o.before.braced = true ∨ o.before.lead = .operand ∧ o.ends = true

/-- A word and what qualifying may make of it, at the same spot. -/
structure Scope.Requalifies (scope : Scope) (o o' : Occurrence) : Prop where
  before : o'.before = o.before
  keyEnd : o'.keyEnd = o.keyEnd
  word : o'.word = o.word ∨
    o.IsExposed ∧ ¬ scope.Keeps o.word ∧ o'.word = scope.localName o.word

/-- Where a whole type may stand, the words of `y` are those of `x`, some of them
qualified. -/
def Scope.Qualifies (scope : Scope) (x y : List Char) : Prop :=
  ∀ (b : Before) (rest rest' : List Char), b.IsFresh → endsOperand rest = true →
    endsOperand rest' = true →
      List.Forall₂ scope.Requalifies (occurrences b rest x) (occurrences b rest' y) ∧
        (b.run x).Alike (b.run y)

section Places

variable {b b' : Before} {c : Char} {x rest : List Char}

/-- No key ends where a type ends. -/
theorem startsLikeKeyEnd_of_endsOperand (h : endsOperand rest = true) :
    startsLikeKeyEnd rest = false := by
  induction rest with
  | nil => rfl
  | cons c rest ih =>
    by_cases hb : Text.isBlank c = true
    · rw [endsOperand_blank hb] at h
      rw [startsLikeKeyEnd_blank hb, ih h]
    · have hb := Bool.eq_false_of_not_eq_true hb
      rw [endsOperand_cons hb] at h
      have hcolon : c ≠ ':' := by
        rintro rfl
        cases h
      have hmark : c ≠ '?' := by
        rintro rfl
        cases h
      rw [startsLikeKeyEnd_cons hb, beq_false_of_ne hcolon, beq_false_of_ne hmark]
      rfl

theorem startsLikeKeyEnd_append (h : endsOperand rest = true) (x : List Char) :
    startsLikeKeyEnd (x ++ rest) = startsLikeKeyEnd x := by
  induction x with
  | nil =>
    rw [List.nil_append, startsLikeKeyEnd_of_endsOperand h]
    rfl
  | cons c x ih =>
    rw [List.cons_append]
    by_cases hc : Text.isBlank c = true
    · rw [startsLikeKeyEnd_blank hc, startsLikeKeyEnd_blank hc, ih]
    · have hc := Bool.eq_false_of_not_eq_true hc
      rw [startsLikeKeyEnd_cons hc, startsLikeKeyEnd_cons hc]
      cases x with
      | cons d x => rfl
      | nil =>
        have hhead : rest.head? ≠ some ':' := by
          intro hr
          obtain ⟨z, rfl⟩ := List.head?_eq_some_iff.mp hr
          cases h
        have hfalse : (rest.head? == some ':') = false := beq_false_of_ne hhead
        rw [List.nil_append, hfalse]
        rfl

namespace Before

namespace Alike

theorem refl (b : Before) : b.Alike b := ⟨rfl, rfl, rfl⟩

theorem trans {b'' : Before} (h : b.Alike b') (h' : b'.Alike b'') : b.Alike b'' :=
  ⟨h.opened.trans h'.opened, h.braced.trans h'.braced, h.literal.trans h'.literal⟩

theorem symm (h : b.Alike b') : b'.Alike b := ⟨h.opened.symm, h.braced.symm, h.literal.symm⟩

/-- What stood right before a neutral character does not matter behind it. -/
theorem step (h : b.Alike b') (hb : b.IsQuoted) (hb' : b'.IsQuoted) (hc : IsNeutral c)
    (hblank : Text.isBlank c = false) : b.step c = b'.step c := by
  have hlead : b.lead.step c = b'.lead.step c := by
    rw [Lead.step, Lead.step, hblank, if_neg Bool.false_ne_true, if_neg Bool.false_ne_true]
  have hliteral : b.literal.map (fun l => (⟨l.quote, false⟩ : Literal)) =
      b'.literal.map fun l => ⟨l.quote, false⟩ := by
    have h' := congrArg (Option.map fun q => (⟨q, false⟩ : Literal)) h.literal
    rwa [Option.map_map, Option.map_map] at h'
  rw [step_neutral hb hc, step_neutral hb' hc, hlead, hliteral, h.opened, h.braced, hblank]
  rfl

end Alike

/-- Blanks leave a place alike. -/
theorem alike_run_blanks (hb : b.IsQuoted) {gap : List Char}
    (hg : ∀ c ∈ gap, Text.isBlank c = true) : b.Alike (b.run gap) := by
  induction gap generalizing b with
  | nil => exact .refl b
  | cons c gap ih =>
    refine Alike.trans ?_ (ih (hb.step c) fun d hd => hg d (List.mem_cons_of_mem _ hd))
    rw [step_blank hb (hg c List.mem_cons_self)]
    refine ⟨rfl, rfl, ?_⟩
    rw [Option.map_map]
    rfl

end Before

theorem isBlank_of_mem_closers (h : c ∈ closers) : Text.isBlank c = false := by
  have hall : closers.all (fun d => !Text.isBlank d) = true := by decide
  simpa using List.all_eq_true.mp hall c h

theorem endsOperand_closer (h : c ∈ closers) (x : List Char) : endsOperand (c :: x) = true := by
  rw [endsOperand_cons (isBlank_of_mem_closers h), List.contains_iff_mem.mpr h, Bool.true_or]

end Places

/-! ## Putting texts together -/

section Assembly

variable {scope : Scope} {b : Before} {x x' y y' z rest rest' gap gap' : List Char} {c o : Char}

namespace Scope

/-- Nothing happens to a text that is kept. -/
theorem requalifies_same (h : endsOperand rest = true) (h' : endsOperand rest' = true)
    (b : Before) (x : List Char) :
    List.Forall₂ scope.Requalifies (occurrences b rest x) (occurrences b rest' x) := by
  induction x generalizing b with
  | nil => exact .nil
  | cons c x ih =>
    rw [occurrences, occurrences]
    refine List.rel_append ?_ (ih _)
    split
    · refine .cons ⟨rfl, ?_, .inl rfl⟩ .nil
      simp only [startsLikeKeyEnd_append h, startsLikeKeyEnd_append h']
    · exact .nil

namespace Qualifies

theorem refl (x : List Char) : scope.Qualifies x x :=
  fun b _ _ _ h h' => ⟨requalifies_same h h' b x, .refl _⟩

theorem of_trim (h : scope.Qualifies (Text.trim x) y) : scope.Qualifies x y := by
  intro b rest rest' hb hr hr'
  obtain ⟨gap, hg, hx, hrun⟩ := occurrences_trim hb x
  obtain ⟨hwords, halike⟩ := h b (gap ++ rest) rest' hb (by rw [endsOperand_blanks hg, hr]) hr'
  refine ⟨by rw [hx rest]; exact hwords, ?_⟩
  rw [hrun]
  exact (Before.alike_run_blanks (hb.quoted.run _) hg).symm.trans halike

/-- Two types with a mark, a comma or an opening angle bracket between them. -/
theorem divide (hx : scope.Qualifies x y) (hx' : scope.Qualifies x' y')
    (hc : c ∈ leads) (hc' : c ∈ closers) (hg : ∀ d ∈ gap, Text.isBlank d = true)
    (hg' : ∀ d ∈ gap', Text.isBlank d = true) :
    scope.Qualifies (x ++ c :: x') (y ++ (gap ++ c :: (gap' ++ y'))) := by
  intro b rest rest' hb hr hr'
  have hneutral := Before.isNeutral_of_mem_leads hc
  have hblank := isBlank_of_mem_closers hc'
  have hends : ∀ z, endsOperand (c :: z) = true := endsOperand_closer hc'
  have hstop : ∀ z, wordMayEnd (c :: z) = true := fun z => wordMayEnd_cons.mpr hneutral.part
  have hstop' : wordMayEnd (gap ++ c :: (gap' ++ y')) = true := by
    cases gap with
    | nil => exact hstop _
    | cons d gap =>
      exact wordMayEnd_cons.mpr (isIdentifierChar_of_isBlank (hg d List.mem_cons_self))
  obtain ⟨hwords, halike⟩ := hx b (c :: x' ++ rest) (gap ++ c :: (gap' ++ y') ++ rest') hb
    (hends _) (by rw [List.append_assoc, endsOperand_blanks hg]; exact hends _)
  -- behind the separator both texts are at the same place
  have hplace : (b.run x).step c = ((b.run y).run gap).step c := by
    have hpad := Before.alike_run_blanks (hb.quoted.run y) hg
    exact (halike.trans hpad).step (hb.quoted.run x) ((hb.quoted.run y).run gap) hneutral hblank
  have hfresh : ((b.run x).step c).IsFresh := Before.isFresh_step (hb.quoted.run x) hc
  obtain ⟨hwords', halike'⟩ := hx' _ rest rest' hfresh hr hr'
  constructor
  · rw [occurrences_append_of_wordMayEnd (hstop x'), occurrences_char hneutral.part,
      occurrences_append_of_wordMayEnd hstop', occurrences_gap hg, occurrences_char hneutral.part,
      ← hplace, occurrences_gap hg', hfresh.run_blanks hg']
    exact List.rel_append hwords hwords'
  · have hleft : b.run (x ++ c :: x') = ((b.run x).step c).run x' := Before.run_append x _
    have hright : b.run (y ++ (gap ++ c :: (gap' ++ y'))) = ((b.run x).step c).run y' := by
      rw [Before.run_append, Before.run_append, hplace]
      show (((b.run y).run gap).step c).run (gap' ++ y') = _
      rw [← hplace, Before.run_append, hfresh.run_blanks hg']
    rw [hleft, hright]
    exact halike'

/-- A type behind an opening bracket. -/
theorem opened (hx : scope.Qualifies x y) (ho : o ∈ leads) :
    scope.Qualifies (o :: x) (o :: y) := by
  intro b rest rest' hb hr hr'
  have hneutral := Before.isNeutral_of_mem_leads ho
  obtain ⟨hwords, halike⟩ := hx _ rest rest' (Before.isFresh_step hb.quoted ho) hr hr'
  refine ⟨?_, halike⟩
  rw [occurrences_char hneutral.part, occurrences_char hneutral.part]
  exact hwords

/-- A type before closing brackets. -/
theorem closed (hx : scope.Qualifies x y) (hc : Before.IsNeutral c)
    (hblank : Text.isBlank c = false) (hz : ∀ rest, endsOperand (c :: z ++ rest) = true) :
    scope.Qualifies (x ++ c :: z) (y ++ c :: z) := by
  intro b rest rest' hb hr hr'
  obtain ⟨hwords, halike⟩ := hx b (c :: z ++ rest) (c :: z ++ rest') hb (hz rest) (hz rest')
  have hplace := halike.step (hb.quoted.run x) (hb.quoted.run y) hc hblank
  have hrun : ∀ a : List Char, b.run (a ++ c :: z) = ((b.run a).step c).run z :=
    fun a => Before.run_append a _
  constructor
  · rw [occurrences_append_of_wordMayEnd (wordMayEnd_cons.mpr hc.part), occurrences_char hc.part,
      occurrences_append_of_wordMayEnd (wordMayEnd_cons.mpr hc.part), occurrences_char hc.part,
      ← hplace]
    exact List.rel_append hwords (requalifies_same hr hr' _ z)
  · rw [hrun, hrun, hplace]
    exact .refl _

theorem ended (hx : scope.Qualifies x y) (hc : c ∈ [')', ']', '>']) :
    scope.Qualifies (x ++ [c]) (y ++ [c]) := by
  have hall : [')', ']', '>'].all (fun d => !isIdentifierChar d && !isQuote d && d != '\\' &&
      d != '.' && !Text.isBlank d && closers.contains d) = true := by decide +kernel
  have h := List.all_eq_true.mp hall c hc
  simp only [Bool.and_eq_true, Bool.not_eq_true', bne_iff_ne] at h
  obtain ⟨⟨⟨⟨⟨hpart, hquote⟩, hslash⟩, hdot⟩, hblank⟩, hcloser⟩ := h
  exact hx.closed ⟨hpart, hquote, hslash, hdot⟩ hblank
    fun rest => endsOperand_closer (List.contains_iff_mem.mp hcloser) _

theorem joins {separators : List Char} (hs : separators ⊆ leads) (hs' : separators ⊆ closers) :
    Joins scope.Qualifies separators :=
  fun hc hg hg' hx hy => hx.divide hy (hs hc) (hs' hc) hg hg'

/-- A word at which a type may begin and end. -/
theorem word {w u : List Char} (hw : IsWord w) (hu : IsWord u)
    (h : u = w ∨ ¬ scope.Keeps w ∧ u = scope.localName w) (hz : wordMayEnd z = true)
    (hends : ∀ rest, endsOperand rest = true → endsOperand (z ++ rest) = true) :
    scope.Qualifies (w ++ z) (u ++ z) := by
  intro b rest rest' hb hr hr'
  have hkey : startsLikeKeyEnd (z ++ rest') = startsLikeKeyEnd (z ++ rest) := by
    rw [startsLikeKeyEnd_append hr', startsLikeKeyEnd_append hr]
  have hexposed : Occurrence.IsExposed
      ⟨w, b, startsLikeKeyEnd (z ++ rest), endsOperand (z ++ rest)⟩ := .inr ⟨hb.lead, hends rest hr⟩
  rw [occurrences_word hb.inWord hw hz, occurrences_word hb.inWord hu hz, Before.run_append,
    Before.run_append, Before.run_word hw, Before.run_word hu]
  have hstays : endsOperand (z ++ rest') = endsOperand (z ++ rest) := by
    rw [hends rest hr, hends rest' hr']
  refine ⟨.cons ⟨rfl, hkey, h.imp_right fun h => ⟨hexposed, h⟩⟩ ?_, .refl _⟩
  exact requalifies_same hr hr' _ z

end Qualifies

end Scope

end Assembly

/-! ## Members of braces -/

section Members

variable {scope : Scope} {g : List Char → List Char} {b : Before} {x rest rest' : List Char}

theorem head?_renameMembers (q : Quotes) (x : List Char) :
    (renameMembers g q x).head? = x.head? := by
  rw [renameMembers.eq_def]
  split
  · rfl
  · split
    · rename_i c rest hc
      subst hc
      split
      · rfl
      · split <;> rfl
    · rfl

theorem startsLikeKeyEnd_renameMembers (q : Quotes) (x : List Char) :
    startsLikeKeyEnd (renameMembers g q x) = startsLikeKeyEnd x := by
  induction x generalizing q with
  | nil => rw [renameMembers.eq_def]
  | cons c x ih =>
    by_cases hcolon : c = ':'
    · have hhead := head?_renameMembers (g := g) q (c :: x)
      obtain ⟨z, hz⟩ := List.head?_eq_some_iff.mp hhead
      subst hcolon
      rw [hz, startsLikeKeyEnd_cons (by decide), startsLikeKeyEnd_cons (by decide)]
      rfl
    · rw [renameMembers_char hcolon]
      by_cases hblank : Text.isBlank c = true
      · rw [startsLikeKeyEnd_blank hblank, startsLikeKeyEnd_blank hblank, ih]
      · have hblank := Bool.eq_false_of_not_eq_true hblank
        rw [startsLikeKeyEnd_cons hblank, startsLikeKeyEnd_cons hblank, head?_renameMembers]

/-- The word at the start stays, and so does what comes behind it. -/
theorem word_renameMembers (q : Quotes) (x : List Char) :
    (renameMembers g q x).takeWhile isIdentifierChar = x.takeWhile isIdentifierChar ∧
      ∃ q', (renameMembers g q x).dropWhile isIdentifierChar =
        renameMembers g q' (x.dropWhile isIdentifierChar) := by
  induction x generalizing q with
  | nil =>
    have hnil : renameMembers g q [] = [] := by rw [renameMembers.eq_def]
    rw [hnil]
    exact ⟨rfl, q, hnil.symm⟩
  | cons c x ih =>
    by_cases hc : isIdentifierChar c = true
    · have hcolon := ne_of_isIdentifierChar hc (show ':' ∈ breaks by decide)
      rw [renameMembers_char hcolon, List.takeWhile_cons_of_pos hc, List.takeWhile_cons_of_pos hc,
        List.dropWhile_cons_of_pos hc, List.dropWhile_cons_of_pos hc, (ih _).1]
      exact ⟨rfl, (ih _).2⟩
    · have hstop : ∀ {z : List Char}, wordMayEnd z = true →
          z.takeWhile isIdentifierChar = [] ∧ z.dropWhile isIdentifierChar = z := by
        intro z hz
        exact takeWhile_word (w := []) (fun _ h => (List.not_mem_nil h).elim) hz
      have hx : wordMayEnd (c :: x) = true := wordMayEnd_cons.mpr (Bool.eq_false_of_not_eq_true hc)
      have hy : wordMayEnd (renameMembers g q (c :: x)) = true := by
        rw [wordMayEnd_renameMembers, hx]
      rw [(hstop hx).1, (hstop hx).2, (hstop hy).1, (hstop hy).2]
      exact ⟨rfl, q, rfl⟩

theorem isNeutral_colon : Before.IsNeutral ':' :=
  ⟨not_isIdentifierChar_of_mem_breaks (by decide), by decide, by decide, by decide⟩

/-- A word behind a colon, with any blanks between them. -/
theorem occurrences_colon {w after gap : List Char} (hb : b.IsQuoted)
    (hg : ∀ c ∈ gap, Text.isBlank c = true) (hw : IsWord w) (ha : wordMayEnd after = true) :
    occurrences b rest (':' :: (gap ++ (w ++ after))) =
        ⟨w, b.step ':', startsLikeKeyEnd (after ++ rest), endsOperand (after ++ rest)⟩ ::
          occurrences (b.step ':').afterWord rest after ∧
      b.run (':' :: (gap ++ (w ++ after))) = (b.step ':').afterWord.run after := by
  have hsettled := Before.isSettled_step hb isNeutral_colon
  constructor
  · rw [occurrences_char isNeutral_colon.part, occurrences_gap hg, hsettled.run_blanks hg,
      occurrences_word hsettled.inWord hw ha]
  · show (b.step ':').run (gap ++ (w ++ after)) = _
    rw [Before.run_append, hsettled.run_blanks hg, Before.run_append, Before.run_word hw]

/-- Behind a brace, only words behind colons are qualified. -/
theorem requalifies_renameMembers
    (hg : ∀ w, IsWord w → IsWord (g w) ∧ (g w = w ∨ ¬ scope.Keeps w ∧ g w = scope.localName w))
    (hx : IsPlain x) (q : Quotes) (hb : b.IsQuoted) (hbraced : b.braced = true)
    (hr : endsOperand rest = true) (hr' : endsOperand rest' = true) :
    List.Forall₂ scope.Requalifies (occurrences b rest x)
        (occurrences b rest' (renameMembers g q x)) ∧
      (b.run x).Alike (b.run (renameMembers g q x)) := by
  have hkept : ∀ (a : Before) (c : Char), a.braced = true → (a.step c).braced = true := by
    intro a c ha
    by_cases hc : isIdentifierChar c = true
    · rw [Before.step_part hc]
      exact ha
    · rw [Before.step_other (Bool.eq_false_of_not_eq_true hc)]
      exact Bool.or_eq_true_iff.mpr (.inl ha)
  induction q, x using renameMembers.induct generalizing b with
  | case1 q => rw [renameMembers.eq_def]; exact ⟨.nil, .refl _⟩
  | case2 q rest hn ih =>
    rw [renameMembers_noName hn, occurrences_char isNeutral_colon.part,
      occurrences_char isNeutral_colon.part]
    exact ih (hx.mono (List.subset_cons_self _ _)) (hb.step ':') (hkept b ':' hbraced)
  | case3 q text blanks name after hn hl ih =>
    obtain ⟨rfl, hblanks, hword, hend, hafter⟩ := hx.of_leadingName? hn
    have hend' : wordMayEnd (renameMembers g (q.step ':') after) = true := by
      rw [wordMayEnd_renameMembers, hend]
    have hkey : startsLikeKeyEnd (renameMembers g (q.step ':') after ++ rest') =
        startsLikeKeyEnd (after ++ rest) := by
      rw [startsLikeKeyEnd_append hr', startsLikeKeyEnd_append hr, startsLikeKeyEnd_renameMembers]
    have hexposed : ∀ {w : List Char} {k e : Bool},
        (Occurrence.mk w (b.step ':') k e).IsExposed := by
      intro w k e
      refine .inl ⟨?_, hkept b ':' hbraced⟩
      rw [Before.step_other isNeutral_colon.part]
      rfl
    obtain ⟨hwords, halike⟩ := ih hafter (hb.step ':').afterWord
      (hkept b ':' hbraced)
    obtain ⟨hfrom, hrun⟩ := @occurrences_colon _ rest _ _ _ hb hblanks hword hend
    rw [renameMembers_name hn, hfrom, hrun]
    split
    · -- a colon in a literal
      obtain ⟨hto, hrun'⟩ := @occurrences_colon _ rest' _ _ _ hb hblanks hword hend'
      rw [List.append_assoc, List.cons_append, hto, hrun']
      exact ⟨.cons ⟨rfl, hkey, .inl rfl⟩ hwords, halike⟩
    · obtain ⟨hword', hname'⟩ := hg name hword
      obtain ⟨hto, hrun'⟩ := @occurrences_colon _ rest' _ _ _ hb Text.isBlank_singleton hword' hend'
      rw [List.singleton_append] at hto hrun'
      rw [List.cons_append, List.cons_append, hto, hrun']
      exact ⟨.cons ⟨rfl, hkey, hname'.imp_right fun h => ⟨hexposed, h⟩⟩ hwords, halike⟩
  | case4 q c text hc ih =>
    obtain ⟨hwords, halike⟩ := ih (hx.mono (List.subset_cons_self c text)) (hb.step c)
      (hkept b c hbraced)
    obtain ⟨htake, q', hdrop⟩ := word_renameMembers (g := g) (q.step c) text
    rw [renameMembers_char hc]
    refine ⟨?_, halike⟩
    rw [occurrences, occurrences, htake, hdrop]
    refine List.rel_append ?_ hwords
    split
    · refine .cons ⟨rfl, ?_, .inl rfl⟩ .nil
      simp only [startsLikeKeyEnd_append hr', startsLikeKeyEnd_append hr,
        startsLikeKeyEnd_renameMembers]
    · exact .nil

end Members

/-! ## Qualifying -/

section Qualifying

variable {scope : Scope} {x : List Char}

/-- An object type begins with a brace. -/
theorem Shape.head_of_object (h : Shape.of x = .object) : x.head? = some '\x7b' := by
  unfold Shape.of at h
  split at h
  · cases h
  split at h
  · cases h
  split at h
  · cases h
  split at h
  · rename_i hbraces
    rw [Bool.and_eq_true] at hbraces
    exact beq_iff_eq.mp hbraces.1
  · unfold Shape.ofSingle at h
    repeat' split at h
    all_goals cases h

/-- Whatever form a text has, the spots of its words stay when its parts are renamed. -/
theorem Shape.Describes.qualifies (hclass : ∀ c ∈ scope.className.toList, isIdentifierChar c = true)
    (hx : IsPlain x) {f : List Char → List Char} {s : Shape} (h : s.Describes x)
    (hobject : s = .object → x.head? = some '\x7b')
    (hf : ∀ part ∈ s.inner, scope.Qualifies part (f part)) :
    scope.Qualifies x (s.renamed scope x f) := by
  have hname : ∀ w, IsWord w → IsWord (scope.qualifyName w) ∧ (scope.qualifyName w = w ∨
      ¬ scope.Keeps w ∧ scope.qualifyName w = scope.localName w) :=
    fun w hw => ⟨Scope.isWord_qualifyName hclass hw, Scope.qualifyName_eq w⟩
  have hmarks : Joins scope.Qualifies ['|', '&'] :=
    Scope.Qualifies.joins (by simp [leads]) (by simp [closers])
  have hlists : Joins scope.Qualifies [','] :=
    Scope.Qualifies.joins (by simp [leads]) (by simp [closers])
  have hbreak : ∀ c ∈ breaks, isIdentifierChar c = false :=
    fun c hc => not_isIdentifierChar_of_mem_breaks hc
  cases h with
  | fixed => exact .refl x
  | members =>
    exact hmarks.members fun p hp => hf p.text (List.mem_map_of_mem hp)
  | object =>
    obtain ⟨z, rfl⟩ := List.head?_eq_some_iff.mp (hobject rfl)
    intro b rest rest' hb hr hr'
    have hbrace : isIdentifierChar '\x7b' = false := hbreak _ (by decide)
    have hbraced : (b.step '\x7b').braced = true := by
      rw [Before.step_other hbrace]
      simp
    rw [Shape.renamed, renameMembers_char (by decide), occurrences_char hbrace,
      occurrences_char hbrace]
    exact requalifies_renameMembers hname (hx.mono (List.subset_cons_self _ _)) _
      (hb.quoted.step _) hbraced hr hr'
  | @array item parts =>
    rw [parts]
    refine (hf item List.mem_cons_self).closed (Before.isNeutral_of_mem_leads (by decide))
      (by decide) fun rest => ?_
    rw [List.cons_append, endsOperand_cons (by decide)]
    rfl
  | @group inner parts =>
    rw [parts]
    exact ((hf inner List.mem_cons_self).ended (by decide)).opened (by decide)
  | tuple parts =>
    rw [parts]
    exact ((hlists.listItems hf).ended (by decide)).opened (by decide)
  | @generic base inner parts =>
    rw [parts]
    have harguments : ∀ item ∈ listItems inner, scope.Qualifies item (f item) :=
      fun item hi => hf item (List.mem_cons_of_mem _ hi)
    exact @Scope.Qualifies.divide _ _ _ _ _ [] [] _ (hf base List.mem_cons_self)
      ((hlists.listItems harguments).ended (by decide)) (by decide) (by decide) Text.isBlank_nil
      Text.isBlank_nil
  | @path first rest isName parts dot =>
    have hfirst : IsPlain first := hx.mono (by rw [parts]; exact List.subset_append_left _ _)
    have hword := hfirst.isWord_of_isName isName
    obtain ⟨z, rfl⟩ := List.head?_eq_some_iff.mp dot
    rw [parts]
    exact .word hword (hname first hword).1 (hname first hword).2
      (wordMayEnd_cons.mpr (hbreak _ (by decide))) fun rest _ => endsOperand_closer (by decide) _
  | name isName =>
    have hword := hx.isWord_of_isName isName
    have h := @Scope.Qualifies.word _ [] _ _ hword (hname x hword).1 (hname x hword).2 rfl
      fun _ h => h
    rwa [List.append_nil, List.append_nil] at h

/-- Qualifying renames words at exposed spots, and does nothing else to a word. -/
theorem qualifies_qualify (hclass : ∀ c ∈ scope.className.toList, isIdentifierChar c = true)
    (hx : IsPlain x) : scope.Qualifies x (qualify scope x) := by
  induction hn : x.length using Nat.strongRecOn generalizing x with
  | ind n ih =>
    subst hn
    have htrim : IsPlain (Text.trim x) := hx.of_tokens (tokens_trim x)
    have hd := Shape.describes_of (Text.trim x)
    rw [qualify_eq]
    refine .of_trim (hd.qualifies hclass htrim Shape.head_of_object ?_)
    intro part hp
    have hl := Nat.lt_of_lt_of_le (length_of_mem_inner hp) (Text.length_trim_le x)
    exact ih _ hl (htrim.mono (hd.subset hp)) rfl

end Qualifying

end ElementWrappers.TypeExpr
