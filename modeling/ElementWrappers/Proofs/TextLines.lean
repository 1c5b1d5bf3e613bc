import Mathlib
import ElementWrappers.Text.Blank

/-!
# Lines of a text

The lines of a generated text, and what they begin with: `Marked` says that every
line but the first begins with a mark. Both follow a text that is put together
from parts.
-/

namespace ElementWrappers.Text

variable {mark x y : List Char} {c : Char}

/-- What holds of parts and of what separates them, and is kept where texts meet,
holds of the text that they make. -/
theorem intercalate_of_forall {P : List Char → Prop} (hnil : P [])
    (happend : ∀ {x y}, P x → P y → P (x ++ y)) {separator : String} (hs : P separator.toList)
    {parts : List String} (h : ∀ part ∈ parts, P part.toList) :
    P (separator.intercalate parts).toList := by
  induction parts with
  | nil => exact hnil
  | cons first rest ih =>
    obtain ⟨hfirst, hrest⟩ := List.forall_mem_cons.mp h
    cases rest with
    | nil => rwa [String.intercalate_singleton]
    | cons next rest =>
      rw [String.intercalate_cons_cons, String.toList_append, String.toList_append]
      exact happend (happend hfirst hs) (ih hrest)

/-- So it is exactly, if what holds of a separated text holds of both its parts. -/
theorem intercalate_iff_forall {P : List Char → Prop} (hnil : P []) {separator : String}
    (happend : ∀ x y, P (x ++ (separator.toList ++ y)) ↔ P x ∧ P y) (parts : List String) :
    P (separator.intercalate parts).toList ↔ ∀ part ∈ parts, P part.toList := by
  induction parts with
  | nil => exact iff_of_true hnil (List.forall_mem_nil _)
  | cons first rest ih =>
    cases rest with
    | nil => rw [String.intercalate_singleton, List.forall_mem_singleton]
    | cons next rest =>
      rw [String.intercalate_cons_cons, String.append_assoc, String.toList_append,
        String.toList_append, happend, ih, List.forall_mem_cons (l := next :: rest)]

/-! ## Trimming -/

/-- A text is what trimming its end leaves, and blanks. -/
theorem exists_trimEnd_append (x : List Char) :
    ∃ b : List Char, (∀ c ∈ b, isBlank c = true) ∧ x = trimEnd x ++ b := by
  refine ⟨(x.reverse.takeWhile isBlank).reverse, ?_, ?_⟩
  · exact fun c hc => List.mem_takeWhile_imp (List.mem_reverse.mp hc)
  · rw [trimEnd, trimStart, ← List.reverse_append, List.takeWhile_append_dropWhile,
      List.reverse_reverse]

/-- A text is what trimming leaves, between blanks. -/
theorem exists_trim_append (x : List Char) : ∃ gap gap' : List Char,
    (∀ c ∈ gap, isBlank c = true) ∧ (∀ c ∈ gap', isBlank c = true) ∧
      x = gap ++ (trim x ++ gap') := by
  obtain ⟨gap', hb, he⟩ := exists_trimEnd_append (trimStart x)
  refine ⟨x.takeWhile isBlank, gap', fun c hc => List.mem_takeWhile_imp hc, hb, ?_⟩
  rw [trim, ← he, trimStart, List.takeWhile_append_dropWhile]

theorem not_mem_trim (h : c ∉ x) : c ∉ trim x := by
  obtain ⟨gap, gap', -, -, he⟩ := exists_trim_append x
  rw [he] at h
  exact fun hm => h (List.mem_append_right _ (List.mem_append_left _ hm))

theorem isBlank_nil : ∀ c ∈ ([] : List Char), isBlank c = true :=
  fun _ h => absurd h List.not_mem_nil

theorem isBlank_singleton : ∀ c ∈ [' '], isBlank c = true := by
  intro c hc
  rw [List.mem_singleton.mp hc]
  decide

/-- A text that neither begins nor ends with a blank. -/
structure IsTrimmed (text : List Char) : Prop where
  first : ∀ c, text.head? = some c → isBlank c = false
  last : ∀ c, text.getLast? = some c → isBlank c = false

theorem isBlank_of_dropWhile (h : (x.dropWhile isBlank).head? = some c) : isBlank c = false := by
  have hstop := List.head?_dropWhile_not isBlank x
  rwa [h] at hstop

theorem isTrimmed_trim (x : List Char) : IsTrimmed (trim x) := by
  refine ⟨fun c hc => ?_, fun c hc => ?_⟩
  · obtain ⟨b, -, he⟩ := exists_trimEnd_append (trimStart x)
    have hstart : (trimStart x).head? = some c := by
      rw [he, List.head?_append, ← trim, hc]
      rfl
    exact isBlank_of_dropWhile hstart
  · rw [trim, trimEnd, List.getLast?_reverse] at hc
    exact isBlank_of_dropWhile hc

theorem trimStart_append (hb : ∀ c ∈ x, isBlank c = true)
    (hy : ∀ c, y.head? = some c → isBlank c = false) : trimStart (x ++ y) = y := by
  rw [trimStart, List.dropWhile_append_of_pos hb]
  cases y with
  | nil => rfl
  | cons c rest => exact List.dropWhile_cons_of_neg (by simp [hy c rfl])

theorem trimEnd_append (hx : ∀ c, x.getLast? = some c → isBlank c = false)
    (hb : ∀ c ∈ y, isBlank c = true) : trimEnd (x ++ y) = x := by
  have hlast : ∀ c, x.reverse.head? = some c → isBlank c = false := by
    intro c hc
    exact hx c (by rwa [List.head?_reverse] at hc)
  rw [trimEnd, List.reverse_append,
    trimStart_append (fun c hc => hb c (List.mem_reverse.mp hc)) hlast, List.reverse_reverse]

/-- Trimming takes away what is blank around a text. -/
theorem IsTrimmed.trim_padded (h : IsTrimmed x) {before after : List Char}
    (hb : ∀ c ∈ before, isBlank c = true) (ha : ∀ c ∈ after, isBlank c = true) :
    trim (before ++ (x ++ after)) = x := by
  cases x with
  | nil =>
    have hstart : trimStart (before ++ after) = [] :=
      List.dropWhile_eq_nil_iff.mpr (List.forall_mem_append.mpr ⟨hb, ha⟩)
    rw [List.nil_append, trim, hstart]
    rfl
  | cons c rest =>
    have hfirst : ∀ d, (c :: rest ++ after).head? = some d → isBlank d = false := h.first
    rw [trim, trimStart_append hb hfirst, trimEnd_append h.last ha]

theorem IsTrimmed.trim_eq (h : IsTrimmed x) : trim x = x := by
  have hpadded := h.trim_padded isBlank_nil isBlank_nil
  rwa [List.nil_append, List.append_nil] at hpadded

/-! ## Marked lines -/

/-- Whatever comes behind a line feed begins with the mark. -/
def Marked (mark text : List Char) : Prop :=
  ∀ before after, text = before ++ '\n' :: after → mark <+: after

theorem marked_of_not_mem (h : '\n' ∉ x) : Marked mark x := by
  rintro before after rfl
  exact absurd (List.mem_append_right _ List.mem_cons_self) h

/-- A mark ends before any character that it does not have. -/
theorem prefix_append_cons_iff (hc : c ∉ mark) (x y : List Char) :
    mark <+: x ++ c :: y ↔ mark <+: x := by
  constructor
  · rintro ⟨r, hr⟩
    rcases List.append_eq_append_iff.mp hr with ⟨s, hx, -⟩ | ⟨s, hm, hs⟩
    · exact ⟨s, hx.symm⟩
    · cases s with
      | nil => exact ⟨[], hm.symm ▸ by simp⟩
      | cons d s =>
        obtain ⟨rfl, -⟩ := List.cons.inj hs
        exact absurd (hm ▸ List.mem_append_right _ List.mem_cons_self) hc
  · exact fun h => h.trans (List.prefix_append _ _)

/-- A mark does not stand across a character that it does not have. -/
theorem infix_append_cons_iff (hc : c ∉ mark) (x y : List Char) :
    mark <:+: x ++ c :: y ↔ mark <:+: x ∨ mark <:+: y := by
  induction x with
  | nil =>
    have hnil : mark <+: c :: y ↔ mark <:+: [] :=
      (prefix_append_cons_iff hc [] y).trans (by rw [List.prefix_nil, List.infix_nil])
    rw [List.nil_append, List.infix_cons_iff, hnil]
  | cons d x ih =>
    have hprefix : mark <+: d :: (x ++ c :: y) ↔ mark <+: d :: x :=
      prefix_append_cons_iff hc (d :: x) y
    rw [List.cons_append, List.infix_cons_iff, List.infix_cons_iff, ih, hprefix, or_assoc]

theorem Marked.append (hx : Marked mark x) (hy : Marked mark y) : Marked mark (x ++ y) := by
  intro before after he
  rcases List.append_eq_append_iff.mp he with ⟨s, -, hs⟩ | ⟨s, hs, hr⟩
  · exact hy s after hs
  · cases s with
    | nil => exact hy [] after hr.symm
    | cons d s =>
      obtain ⟨rfl, rfl⟩ := List.cons.inj hr
      exact (hx before s hs).trans (List.prefix_append _ _)

/-- Where a text goes on with a character that the mark does not have, its own
line feeds have the mark behind them. -/
theorem marked_append_cons_iff (hc : c ∉ mark) (hn : c ≠ '\n') (x y : List Char) :
    Marked mark (x ++ c :: y) ↔ Marked mark x ∧ Marked mark y := by
  constructor
  · refine fun h => ⟨?_, ?_⟩
    · rintro before after rfl
      have := h before (after ++ c :: y) (by rw [List.append_assoc, List.cons_append])
      exact (prefix_append_cons_iff hc after y).mp this
    · rintro before after rfl
      exact h (x ++ c :: before) after (by rw [List.append_assoc, List.cons_append])
  · rintro ⟨hx, hy⟩
    have hc : Marked mark [c] := marked_of_not_mem fun h => hn (List.mem_singleton.mp h).symm
    exact hx.append (hc.append hy)

/-- So it is where a text goes on with one character that does not end the mark. -/
theorem marked_concat_iff (hc : mark.getLast? ≠ some c) (hn : c ≠ '\n') (x : List Char) :
    Marked mark (x ++ [c]) ↔ Marked mark x := by
  constructor
  · rintro h before after rfl
    have hm := h before (after ++ [c]) (by rw [List.append_assoc, List.cons_append])
    rcases List.prefix_concat_iff.mp hm with he | hm
    · exact absurd (he ▸ List.getLast?_concat) hc
    · exact hm
  · have hone : Marked mark [c] := marked_of_not_mem fun h => hn (List.mem_singleton.mp h).symm
    exact fun h => h.append hone

theorem marked_newline_iff (x : List Char) :
    Marked mark ('\n' :: x) ↔ mark <+: x ∧ Marked mark x := by
  constructor
  · refine fun h => ⟨h [] x rfl, ?_⟩
    rintro before after rfl
    exact h ('\n' :: before) after rfl
  · rintro ⟨hm, hx⟩ before after he
    cases before with
    | nil =>
      obtain ⟨-, rfl⟩ := List.cons.inj he
      exact hm
    | cons d before =>
      obtain ⟨-, rfl⟩ := List.cons.inj he
      exact hx before after rfl

theorem marked_append_iff (hx : '\n' ∉ x) : Marked mark (x ++ y) ↔ Marked mark y := by
  constructor
  · rintro h before after rfl
    exact h (x ++ before) after (List.append_assoc _ _ _).symm
  · exact (marked_of_not_mem hx).append

/-- Marked are the lines behind the first one. -/
theorem marked_iff_tail (hm : '\n' ∉ mark) (x : List Char) :
    Marked mark x ↔ ∀ line ∈ (x.splitOn '\n').tail, mark <+: line := by
  induction x with
  | nil =>
    have hnone : ∀ line ∈ (List.splitOn '\n' []).tail, mark <+: line := by
      intro line h
      cases h
    exact iff_of_true (marked_of_not_mem List.not_mem_nil) hnone
  | cons c rest ih =>
    obtain ⟨first, more, hs⟩ := List.exists_cons_of_ne_nil (List.splitOn_ne_nil '\n' rest)
    rw [List.splitOn_cons_eq_if_modifyHead, hs]
    rw [hs] at ih
    by_cases hc : c = '\n'
    · subst hc
      have hfirst : mark <+: rest ↔ mark <+: first := by
        have hrest : rest = ['\n'].intercalate (first :: more) := by
          rw [← hs, List.intercalate_splitOn]
        cases more with
        | nil => rw [hrest, List.intercalate_singleton]
        | cons next more =>
          rw [hrest, List.intercalate_cons_cons, List.append_assoc]
          exact prefix_append_cons_iff hm first _
      rw [marked_newline_iff, ih, hfirst, if_pos (beq_self_eq_true _)]
      exact (List.forall_mem_cons (p := fun line => mark <+: line)).symm
    · have hrest : Marked mark (c :: rest) ↔ Marked mark rest :=
        marked_append_iff fun h => hc (List.mem_singleton.mp h).symm
      rw [hrest, ih, if_neg (by simpa using hc)]
      rfl

/-! ## Lines -/

theorem mem_splitOn {x : Char} {cs piece : List Char} (h : piece ∈ cs.splitOn x) :
    x ∉ piece ∧ piece ⊆ cs := by
  induction cs generalizing piece with
  | nil => simp_all
  | cons c cs ih =>
    rw [List.splitOn_cons_eq_if_modifyHead] at h
    split at h
    · rcases List.mem_cons.mp h with rfl | h
      · simp
      · exact ⟨(ih h).1, fun d hd => List.mem_cons_of_mem _ ((ih h).2 hd)⟩
    · rename_i hc
      have hc : x ≠ c := fun e => hc (by simp [e])
      obtain ⟨first, rest, hs⟩ := List.exists_cons_of_ne_nil (List.splitOn_ne_nil x cs)
      rw [hs, List.modifyHead_cons] at h
      rcases List.mem_cons.mp h with rfl | h
      · obtain ⟨h1, h2⟩ := ih (hs ▸ List.mem_cons_self)
        exact ⟨by simp [hc, h1], List.cons_subset_cons _ h2⟩
      · obtain ⟨h1, h2⟩ := ih (hs ▸ List.mem_cons_of_mem _ h)
        exact ⟨h1, fun d hd => List.mem_cons_of_mem _ (h2 hd)⟩

/-- The lines of a text, without their line feeds. -/
def linesOf (text : String) : List String := (text.toList.splitOn '\n').map String.ofList

theorem linesOf_append (a b : String) : linesOf (a ++ "\n" ++ b) = linesOf a ++ linesOf b := by
  have h : (a ++ "\n" ++ b).toList = a.toList ++ '\n' :: b.toList := by simp
  rw [linesOf, h, List.splitOn_append_cons_self, List.map_append]
  rfl

theorem linesOf_single {a : String} (h : '\n' ∉ a.toList) : linesOf a = [a] := by
  rw [linesOf, List.splitOn_eq_singleton h, List.map_singleton, String.ofList_toList]

theorem linesOf_intercalate {parts : List String} (h : parts ≠ []) :
    linesOf ("\n".intercalate parts) = parts.flatMap linesOf := by
  induction parts with
  | nil => exact absurd rfl h
  | cons first rest ih =>
    cases rest with
    | nil => rw [String.intercalate_singleton, List.flatMap_singleton]
    | cons next rest =>
      rw [String.intercalate_cons_cons, linesOf_append, ih (List.cons_ne_nil _ _)]
      rfl

theorem flatMap_linesOf {parts : List String} (h : ∀ part ∈ parts, '\n' ∉ part.toList) :
    parts.flatMap linesOf = parts :=
  calc parts.flatMap linesOf = parts.flatMap List.singleton :=
        List.flatMap_congr fun part hp => linesOf_single (h part hp)
    _ = parts := List.flatMap_singleton' parts

/-- Parts without line feeds are the lines of the text that they make. -/
theorem linesOf_intercalate_single {parts : List String} (h : parts ≠ [])
    (hn : ∀ part ∈ parts, '\n' ∉ part.toList) : linesOf ("\n".intercalate parts) = parts := by
  rw [linesOf_intercalate h, flatMap_linesOf hn]

theorem marked_iff_linesOf {mark text : String} (hm : '\n' ∉ mark.toList) :
    Marked mark.toList text.toList ↔ ∀ line ∈ (linesOf text).tail, mark.toList <+: line.toList := by
  rw [marked_iff_tail hm, linesOf, ← List.map_tail, List.forall_mem_map]
  simp only [String.toList_ofList]

/-- All lines begin with the mark if the first does and the others are marked. -/
theorem forall_linesOf_iff {mark text : String} (hm : '\n' ∉ mark.toList) :
    (∀ line ∈ linesOf text, mark.toList <+: line.toList) ↔
      mark.toList <+: text.toList ∧ Marked mark.toList text.toList := by
  have hlines : ('\n' :: text.toList).splitOn '\n' = [] :: text.toList.splitOn '\n' :=
    List.splitOn_append_cons_self [] text.toList
  rw [← marked_newline_iff, marked_iff_tail hm, hlines, linesOf, List.forall_mem_map]
  simp only [String.toList_ofList, List.tail_cons]

end ElementWrappers.Text
