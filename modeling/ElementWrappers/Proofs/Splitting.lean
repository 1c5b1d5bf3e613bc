import Mathlib
import ElementWrappers.Proofs.Qualify
import ElementWrappers.Proofs.ShapeParts

/-!
# Pieces of a split

Behind a separator a scan goes on as if the text began there, whatever brackets were left open
or closed before. So no piece has a separator outside its own brackets and literals, and none
is split again: `split_isComplete`. The members of a union are such pieces.
-/

namespace ElementWrappers.TypeExpr

/-- The characters that change how a text is scanned from there on. -/
def tracked : List Char :=
  ['<', '>', '\x7b', '\x7d', '(', ')', '[', ']', '\'', '"', '\x60', '=', '\\']

section Splitting

variable {s t : Scan} {c : Char} {separators text x y : List Char} {p : Piece}

/-! ## Places that are scanned alike -/

/-- Two places from which every text is scanned alike. -/
structure Scan.Alike (s t : Scan) : Prop where
  depth : s.depth = t.depth
  opened : s.quotes.opened = t.quotes.opened
  escape : s.quotes.previous = some '\\' ↔ t.quotes.previous = some '\\'
  arrow : s.quotes.previous = some '=' ↔ t.quotes.previous = some '='

theorem bracketShift_congr {previous previous' : Option Char}
    (h : previous = some '=' ↔ previous' = some '=') (c : Char) :
    bracketShift previous c = bracketShift previous' c := by
  unfold bracketShift
  simp only [h]

theorem not_tracked (h : c ∉ tracked) :
    isQuote c = false ∧ c ≠ '\\' ∧ c ≠ '=' ∧ ∀ previous, bracketShift previous c = 0 := by
  simp only [tracked, List.mem_cons, List.not_mem_nil, or_false, not_or] at h
  simp [isQuote, bracketShift, h]

theorem isBlank_not_tracked (h : Text.isBlank c = true) : c ∉ tracked := by
  have hall : tracked.all (fun c => !Text.isBlank c) = true := by decide
  intro hm
  have hc := List.all_eq_true.mp hall c hm
  rw [h] at hc
  cases hc

namespace Scan.Alike

theorem covers (h : s.Alike t) (c : Char) : s.quotes.covers c = t.quotes.covers c := by
  rw [Quotes.covers, Quotes.covers, h.opened]

theorem step (h : s.Alike t) (c : Char) : (s.step c).Alike (t.step c) where
  depth := by
    simp only [Scan.step]
    rw [h.covers, h.depth, bracketShift_congr h.arrow]
  opened := by
    simp only [Scan.step, Quotes.step]
    rw [h.opened]
    simp only [ne_eq, h.escape]
  escape := Iff.rfl
  arrow := Iff.rfl

theorem cuts (h : s.Alike t) (separators : List Char) (c : Char) :
    s.cuts separators c = t.cuts separators c := by
  rw [Scan.cuts, Scan.cuts, h.covers, h.depth]

theorem splitFrom_eq (h : s.Alike t) (separators text : List Char) :
    splitFrom separators s text = splitFrom separators t text := by
  induction text generalizing s t with
  | nil => rfl
  | cons c rest ih => rw [splitFrom, splitFrom, h.cuts, ih (h.step c)]

/-- Outside brackets and literals, a character that is not tracked leads to a place like the
first one. -/
theorem start (hdepth : s.depth = 0) (hopened : s.quotes.opened = none) (hc : c ∉ tracked) :
    (s.step c).Alike {} := by
  obtain ⟨hquote, hslash, harrow, hshift⟩ := not_tracked hc
  refine ⟨?_, ?_, ?_, ?_⟩
  · simp [Scan.step, hdepth, hshift]
  · simp [Scan.step, Quotes.step, hopened, hquote]
  · simp [Scan.step, Quotes.step, hslash]
  · simp [Scan.step, Quotes.step, harrow]

theorem start_foldl (h : s.Alike {}) (hx : ∀ c ∈ x, c ∉ tracked) :
    (x.foldl Scan.step s).Alike {} := by
  induction x generalizing s with
  | nil => exact h
  | cons c rest ih =>
    obtain ⟨hc, hrest⟩ := List.forall_mem_cons.mp hx
    exact ih (start h.depth h.opened hc) hrest

end Scan.Alike

/-- Behind a separator the text is split as if it began there. -/
theorem splitFrom_step_of_cuts (hs : ∀ c ∈ separators, c ∉ tracked)
    (h : s.cuts separators c = true) (rest : List Char) :
    splitFrom separators (s.step c) rest = split separators rest := by
  obtain ⟨hopened, -, hdepth, hc⟩ := Scan.of_cuts h
  exact (Scan.Alike.start hdepth hopened (hs c hc)).splitFrom_eq separators rest

/-! ## Texts that are not split -/

/-- From a place on, no character of a text separates two parts. -/
def IsWhole (separators : List Char) (s : Scan) (text : List Char) : Prop :=
  ∀ before c after, text = before ++ c :: after →
    (before.foldl Scan.step s).cuts separators c = false

theorem isWhole_nil : IsWhole separators s [] := by
  intro before c after h
  simp at h

theorem isWhole_cons_iff : IsWhole separators s (c :: x) ↔
    s.cuts separators c = false ∧ IsWhole separators (s.step c) x := by
  constructor
  · intro h
    refine ⟨h [] c x rfl, fun before d after he => ?_⟩
    exact h (c :: before) d after (by rw [he]; rfl)
  · rintro ⟨hc, hx⟩ before d after he
    cases before with
    | nil =>
      obtain ⟨rfl, rfl⟩ := List.cons.inj he
      exact hc
    | cons b before =>
      obtain ⟨rfl, rfl⟩ := List.cons.inj he
      exact hx before d after rfl

theorem isWhole_append_iff : IsWhole separators s (x ++ y) ↔
    IsWhole separators s x ∧ IsWhole separators (x.foldl Scan.step s) y := by
  induction x generalizing s with
  | nil => exact (and_iff_right isWhole_nil).symm
  | cons c x ih =>
    rw [List.cons_append, isWhole_cons_iff, isWhole_cons_iff, ih, and_assoc]
    rfl

theorem pushFront_eq_singleton_iff {pieces : List Piece} (h : pieces ≠ []) :
    pushFront c pieces = [⟨c :: x, none⟩] ↔ pieces = [⟨x, none⟩] := by
  obtain ⟨⟨text, after⟩, rest, rfl⟩ := List.exists_cons_of_ne_nil h
  simp [pushFront]

/-- The texts in which nothing separates parts are those that are not split. -/
theorem splitFrom_eq_singleton_iff :
    splitFrom separators s text = [⟨text, none⟩] ↔ IsWhole separators s text := by
  induction text generalizing s with
  | nil => exact iff_of_true rfl isWhole_nil
  | cons c rest ih =>
    rw [isWhole_cons_iff, ← ih]
    cases hc : s.cuts separators c with
    | true => simp [splitFrom, hc]
    | false =>
      rw [splitFrom_of_not_cuts hc, pushFront_eq_singleton_iff (splitFrom_ne_nil _ _ _)]
      simp

theorem IsWhole.congr (h : s.Alike t) : IsWhole separators s text ↔ IsWhole separators t text := by
  rw [← splitFrom_eq_singleton_iff, h.splitFrom_eq, splitFrom_eq_singleton_iff]

/-- Blanks around a text do not matter. -/
theorem IsWhole.trim (h : IsWhole separators {} text) :
    IsWhole separators {} (Text.trim text) := by
  obtain ⟨gap, gap', hg, -, he⟩ := Text.exists_trim_append text
  rw [he, isWhole_append_iff, isWhole_append_iff] at h
  have hstart : Scan.Alike {} {} := ⟨rfl, rfl, Iff.rfl, Iff.rfl⟩
  exact (IsWhole.congr (hstart.start_foldl fun c hc => isBlank_not_tracked (hg c hc))).mp h.2.1

/-! ## Pieces -/

/-- The first piece is scanned from where the text is. -/
theorem isWhole_head {rest : List Piece} (h : splitFrom separators s text = p :: rest) :
    IsWhole separators s p.text := by
  induction text generalizing s p rest with
  | nil =>
    obtain ⟨rfl, -⟩ := List.cons.inj h
    exact isWhole_nil
  | cons c text ih =>
    cases hc : s.cuts separators c with
    | true =>
      rw [splitFrom, hc, if_pos rfl] at h
      obtain ⟨rfl, -⟩ := List.cons.inj h
      exact isWhole_nil
    | false =>
      obtain ⟨q, more, hq⟩ := List.exists_cons_of_ne_nil
        (splitFrom_ne_nil separators (s.step c) text)
      rw [splitFrom_of_not_cuts hc, hq] at h
      obtain ⟨rfl, -⟩ := List.cons.inj h
      exact isWhole_cons_iff.mpr ⟨hc, ih hq⟩

/-- The other pieces are scanned as if each began a text. -/
theorem isWhole_of_mem_tail (hs : ∀ c ∈ separators, c ∉ tracked)
    (hp : p ∈ (splitFrom separators s text).tail) : IsWhole separators {} p.text := by
  induction text generalizing s with
  | nil => cases hp
  | cons c rest ih =>
    cases hc : s.cuts separators c with
    | true =>
      rw [splitFrom, hc, if_pos rfl, List.tail_cons, splitFrom_step_of_cuts hs hc] at hp
      obtain ⟨q, more, hq⟩ := List.exists_cons_of_ne_nil (splitFrom_ne_nil separators {} rest)
      rw [split, hq] at hp
      rcases List.mem_cons.mp hp with rfl | hm
      · exact isWhole_head hq
      · exact ih (s := {}) (by rwa [hq])
    | false =>
      obtain ⟨q, more, hq⟩ := List.exists_cons_of_ne_nil
        (splitFrom_ne_nil separators (s.step c) rest)
      rw [splitFrom_of_not_cuts hc, hq] at hp
      exact ih (s := s.step c) (by rwa [hq])

theorem isWhole_of_mem_split (hs : ∀ c ∈ separators, c ∉ tracked) (hp : p ∈ split separators text) :
    IsWhole separators {} p.text := by
  obtain ⟨q, more, hq⟩ := List.exists_cons_of_ne_nil (splitFrom_ne_nil separators {} text)
  rw [split, hq] at hp
  rcases List.mem_cons.mp hp with rfl | hm
  · exact isWhole_head hq
  · exact isWhole_of_mem_tail hs (by rwa [hq])

/-! ## Members -/

theorem qualify_trim (scope : Scope) (text : List Char) :
    qualify scope (Text.trim text) = qualify scope text := by
  rw [qualify_eq, (Text.isTrimmed_trim text).trim_eq, ← qualify_eq]

theorem qualify_members (scope : Scope) {pieces : List Piece}
    (h : Shape.of (Text.trim text) = .members pieces) : qualify scope text =
      joinMembers false (pieces.map fun p => (qualify scope (Text.trim p.text), p.after)) := by
  rw [qualify_eq, h]
  simp only [Shape.renamed, qualify_trim]

theorem isWhole_of_member {pieces : List Piece} (h : Shape.of text = .members pieces)
    (hp : p ∈ pieces) : IsWhole ['|', '&'] {} p.text := by
  have hd := Shape.describes_of text
  rw [h] at hd
  cases hd
  exact isWhole_of_mem_split (by simp [tracked]) hp

/-- Splitting loses nothing and leaves nothing to split: the pieces with their separators are
the text, and only the last is without one. The members of a union are shorter than it, and no
unions themselves. -/
theorem split_isComplete (hs : ∀ c ∈ separators, c ∉ tracked) (text : List Char) :
    unsplit (split separators text) = text ∧ Parted separators (split separators text) ∧
      (∀ p ∈ split separators text,
        IsWhole separators {} p.text ∧ split separators p.text = [⟨p.text, none⟩]) ∧
      ∀ scope pieces, Shape.of (Text.trim text) = .members pieces →
        qualify scope text =
          joinMembers false (pieces.map fun p => (qualify scope (Text.trim p.text), p.after)) ∧
        ∀ p ∈ pieces, (Text.trim p.text).length < (Text.trim text).length ∧
          split ['|', '&'] (Text.trim p.text) = [⟨Text.trim p.text, none⟩] := by
  refine ⟨unsplit_splitFrom _ _ _, parted_splitFrom _ _ _, fun p hp => ?_, fun scope pieces h => ?_⟩
  · have hwhole := isWhole_of_mem_split hs hp
    exact ⟨hwhole, splitFrom_eq_singleton_iff.mpr hwhole⟩
  · refine ⟨qualify_members scope h, fun p hp => ⟨?_, ?_⟩⟩
    · have hinner : p.text ∈ (Shape.of (Text.trim text)).inner := by
        rw [h]
        exact List.mem_map_of_mem hp
      exact Nat.lt_of_le_of_lt (Text.length_trim_le p.text) (length_of_mem_inner hinner)
    · exact splitFrom_eq_singleton_iff.mpr (isWhole_of_member h hp).trim

/-- A union with separators in brackets and literals, and a bracket that closes nothing. -/
def unevenUnion : String := "(a | b) => c| 'x|\\'&' & Foo<A|B> |] & d"

theorem split_isComplete_unevenUnion :
    (∀ c ∈ ['|', '&'], c ∉ tracked) ∧ split ['|', '&'] unevenUnion.toList =
      [⟨"(a | b) => c".toList, some '|'⟩, ⟨" 'x|\\'&' ".toList, some '&'⟩,
        ⟨" Foo<A|B> ".toList, some '|'⟩, ⟨"] & d".toList, none⟩] ∧
    IsWhole ['|', '&'] {} "] & d".toList ∧
      split ['|', '&'] " 'x|\\'&' ".toList = [⟨" 'x|\\'&' ".toList, none⟩] ∧
      split ['|', '&'] "'x|\\'&'".toList = [⟨"'x|\\'&'".toList, none⟩] := by
  have hs : ∀ c ∈ ['|', '&'], c ∉ tracked := by simp [tracked]
  have hsplit : split ['|', '&'] unevenUnion.toList =
      [⟨"(a | b) => c".toList, some '|'⟩, ⟨" 'x|\\'&' ".toList, some '&'⟩,
        ⟨" Foo<A|B> ".toList, some '|'⟩, ⟨"] & d".toList, none⟩] := by decide +kernel
  have hshape : Shape.of (Text.trim unevenUnion.toList) =
      .members (split ['|', '&'] unevenUnion.toList) := by decide +kernel
  have htrim : Text.trim " 'x|\\'&' ".toList = "'x|\\'&'".toList := by decide +kernel
  obtain ⟨-, -, hpieces, hmembers⟩ := split_isComplete hs unevenUnion.toList
  obtain ⟨-, hmember⟩ := hmembers ⟨"X", .empty⟩ _ hshape
  rw [hsplit] at hpieces hmember
  have hliteral := (hmember ⟨" 'x|\\'&' ".toList, some '&'⟩ (by simp)).2
  rw [htrim] at hliteral
  exact ⟨hs, hsplit, (hpieces ⟨"] & d".toList, none⟩ (by simp)).1,
    (hpieces ⟨" 'x|\\'&' ".toList, some '&'⟩ (by simp)).2, hliteral⟩

end Splitting

end ElementWrappers.TypeExpr
