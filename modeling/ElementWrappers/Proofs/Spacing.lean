import ElementWrappers.Proofs.TextLines
import ElementWrappers.Proofs.TypeSyntax

/-!
# Spacing of printed types

Single spaces between nonblank characters, one after each comma and none before
it. Normalizing keeps such a text, and printed types are of this kind.
-/

namespace ElementWrappers.TypeExpr

/-- Nonblank characters with single spaces between them. -/
inductive Spaced : List Char → Prop
  | char {c : Char} (hb : Text.isBlank c = false) (hc : c ≠ ',') : Spaced [c]
  | append {x y : List Char} : Spaced x → Spaced y → Spaced (x ++ y)
  | space {x y : List Char} : Spaced x → Spaced y → Spaced (x ++ ' ' :: y)
  | comma {x y : List Char} : Spaced x → Spaced y → Spaced (x ++ ',' :: ' ' :: y)

namespace Spaced

variable {x y : List Char}

theorem first (h : Spaced x) : ∃ c rest, x = c :: rest ∧ Text.isBlank c = false := by
  induction h with
  | @char c hb => exact ⟨c, [], rfl, hb⟩
  | append _ _ ih | space _ _ ih | comma _ _ ih =>
    obtain ⟨c, rest, rfl, hb⟩ := ih
    exact ⟨c, _, List.cons_append, hb⟩

theorem last (h : Spaced x) : ∃ rest c, x = rest ++ [c] ∧ Text.isBlank c = false := by
  induction h with
  | @char c hb => exact ⟨[], c, rfl, hb⟩
  | append _ _ _ ih =>
    obtain ⟨rest, c, rfl, hb⟩ := ih
    exact ⟨_, c, (List.append_assoc _ _ _).symm, hb⟩
  | @space u _ _ _ _ ih =>
    obtain ⟨rest, c, rfl, hb⟩ := ih
    exact ⟨u ++ ' ' :: rest, c, by simp, hb⟩
  | @comma u _ _ _ _ ih =>
    obtain ⟨rest, c, rfl, hb⟩ := ih
    exact ⟨u ++ ',' :: ' ' :: rest, c, by simp, hb⟩

theorem ne_nil (h : Spaced x) : x ≠ [] := by
  obtain ⟨c, rest, rfl, -⟩ := h.first
  exact List.cons_ne_nil _ _

/-- Characters that are neither blanks nor commas. -/
theorem of_solid (hne : x ≠ []) (h : ∀ c ∈ x, Text.isBlank c = false ∧ c ≠ ',') : Spaced x := by
  induction x with
  | nil => exact absurd rfl hne
  | cons c rest ih =>
    have hc : Spaced [c] := .char (h c List.mem_cons_self).1 (h c List.mem_cons_self).2
    cases rest with
    | nil => exact hc
    | cons d rest =>
      exact hc.append (ih (List.cons_ne_nil _ _) fun e he => h e (List.mem_cons_of_mem _ he))

theorem of_isWord (h : IsWord x) : Spaced x :=
  of_solid h.ne_nil fun c hc => ⟨isBlank_of_isIdentifierChar (h.chars c hc),
    ne_of_isIdentifierChar (h.chars c hc) (by decide)⟩

theorem pair {c d : Char} (hc : Spaced [c]) (hd : Spaced [d]) : Spaced [c, d] := hc.append hd

theorem commas {xs : List (List Char)} (hne : xs ≠ []) (h : ∀ x ∈ xs, Spaced x) :
    Spaced (commas xs) := by
  induction xs with
  | nil => exact absurd rfl hne
  | cons x rest ih =>
    have hx : Spaced x := h x List.mem_cons_self
    cases rest with
    | nil => simpa [TypeExpr.commas] using hx
    | cons y rest =>
      have hrest := ih (List.cons_ne_nil _ _) fun z hz => h z (List.mem_cons_of_mem _ hz)
      simpa [TypeExpr.commas, List.intercalate_cons_cons] using hx.comma hrest

theorem enclosed {o c : Char} (ho : Spaced [o]) (hc : Spaced [c]) {xs : List (List Char)}
    (h : ∀ x ∈ xs, Spaced x) : Spaced (enclosed o c xs) := by
  cases xs with
  | nil => exact ho.append hc
  | cons x rest => exact ho.append ((Spaced.commas (List.cons_ne_nil _ _) h).append hc)

theorem braced {xs : List (List Char)} (h : ∀ x ∈ xs, Spaced x) : Spaced (braced xs) := by
  have hopen : Spaced ['\x7b'] := .char (by decide) (by decide)
  have hclose : Spaced ['\x7d'] := .char (by decide) (by decide)
  cases xs with
  | nil => exact hopen.append hclose
  | cons x rest => exact hopen.space ((Spaced.commas (List.cons_ne_nil _ _) h).space hclose)

/-! ## Normalizing -/

theorem ne_newline (h : Spaced x) {c : Char} (hc : c ∈ x) : c ≠ '\n' := by
  have hblank : ∀ {d : Char}, Text.isBlank d = false → d ≠ '\n' := by
    rintro d hd rfl
    cases hd
  induction h with
  | char hb => exact List.mem_singleton.mp hc ▸ hblank hb
  | append _ _ ihx ihy =>
    rcases List.mem_append.mp hc with hc | hc
    · exact ihx hc
    · exact ihy hc
  | space _ _ ihx ihy =>
    rcases List.mem_append.mp hc with hc | hc
    · exact ihx hc
    · rcases List.mem_cons.mp hc with rfl | hc
      · decide
      · exact ihy hc
  | comma _ _ ihx ihy =>
    rcases List.mem_append.mp hc with hc | hc
    · exact ihx hc
    · rcases List.mem_cons.mp hc with rfl | hc
      · decide
      · rcases List.mem_cons.mp hc with rfl | hc
        · decide
        · exact ihy hc

theorem joinLines_eq (h : ∀ c ∈ x, c ≠ '\n') : joinLines x = x := by
  induction x using joinLines.induct with
  | case1 rest => exact absurd rfl (h '\n' (by simp))
  | case2 rest => exact absurd rfl (h '\n' (by simp))
  | case3 c rest h1 h2 ih =>
    rw [joinLines, ih fun d hd => h d (List.mem_cons_of_mem _ hd)]
    · exact h1
    · exact h2
  | case4 => rfl

theorem collapse_cons {c : Char} (hc : Text.isBlank c = false) (rest : List Char) :
    collapse (c :: rest) = c :: collapse rest := by
  cases rest with
  | nil => rw [collapse_singleton, collapse_nil]
  | cons d rest => exact collapse_pair (by rw [hc, Bool.false_and]; exact Bool.false_ne_true)

theorem collapse_space (hy : Spaced y) (rest : List Char) :
    collapse (' ' :: (y ++ rest)) = ' ' :: collapse (y ++ rest) := by
  obtain ⟨c, u, rfl, hc⟩ := hy.first
  rw [List.cons_append, collapse_pair (by rw [hc, Bool.and_false]; exact Bool.false_ne_true)]

theorem collapse_append (h : Spaced x) (rest : List Char) :
    collapse (x ++ rest) = x ++ collapse rest := by
  induction h generalizing rest with
  | char hb => exact collapse_cons hb rest
  | append _ _ ihx ihy => rw [List.append_assoc, ihx, ihy, List.append_assoc]
  | space _ hy ihx ihy =>
    rw [List.append_assoc, List.cons_append, ihx, collapse_space hy, ihy, List.append_assoc,
      List.cons_append]
  | comma _ hy ihx ihy =>
    rw [List.append_assoc, List.cons_append, List.cons_append, ihx, collapse_cons (by decide),
      collapse_space hy, ihy, List.append_assoc, List.cons_append, List.cons_append]

theorem spaceCommas_cons {c : Char} (hc : c ≠ ',') (rest : List Char) :
    spaceCommas (c :: rest) = c :: spaceCommas rest := by
  rw [spaceCommas, if_neg hc]

theorem spaceCommas_comma (hy : Spaced y) (rest : List Char) :
    spaceCommas (',' :: ' ' :: (y ++ rest)) = ',' :: ' ' :: spaceCommas (y ++ rest) := by
  obtain ⟨c, u, rfl, hc⟩ := hy.first
  have hdrop : (' ' :: (c :: u ++ rest)).dropWhile Text.isBlank = c :: u ++ rest := by
    rw [List.dropWhile_cons_of_pos (by decide), List.cons_append, List.dropWhile_cons_of_neg (by simp [hc])]
  rw [spaceCommas, if_pos rfl, hdrop]

theorem spaceCommas_append (h : Spaced x) (rest : List Char) :
    spaceCommas (x ++ rest) = x ++ spaceCommas rest := by
  induction h generalizing rest with
  | char _ hc => exact spaceCommas_cons hc rest
  | append _ _ ihx ihy => rw [List.append_assoc, ihx, ihy, List.append_assoc]
  | space _ _ ihx ihy =>
    rw [List.append_assoc, List.cons_append, ihx, spaceCommas_cons (by decide), ihy,
      List.append_assoc, List.cons_append]
  | comma _ hy ihx ihy =>
    rw [List.append_assoc, List.cons_append, List.cons_append, ihx, spaceCommas_comma hy, ihy,
      List.append_assoc, List.cons_append, List.cons_append]

theorem isTrimmed (h : Spaced x) : Text.IsTrimmed x := by
  refine ⟨fun d hd => ?_, fun d hd => ?_⟩
  · obtain ⟨c, rest, rfl, hc⟩ := h.first
    rwa [← Option.some.inj hd]
  · obtain ⟨rest, c, rfl, hc⟩ := h.last
    rw [List.getLast?_concat] at hd
    rwa [← Option.some.inj hd]

theorem normalize_eq (h : Spaced x) : normalize x = x := by
  have hc := h.collapse_append []
  have hs := h.spaceCommas_append []
  rw [List.append_nil, collapse_nil, List.append_nil] at hc
  rw [List.append_nil, spaceCommas, List.append_nil] at hs
  rw [normalize, joinLines_eq fun c => h.ne_newline, hc, hs, h.isTrimmed.trim_eq]

end Spaced

/-! ## Printed types -/

theorem spaced_path (first : Name) (tail : List Name) : Spaced (first.chars ++ dotted tail) := by
  induction tail generalizing first with
  | nil => simpa [dotted] using Spaced.of_isWord first.isWord
  | cons x rest ih =>
    have hdot : Spaced ['.'] := .char (by decide) (by decide)
    simpa [dotted] using (Spaced.of_isWord first.isWord).append (hdot.append (ih x))

theorem spaced_key (k : Key) : Spaced k.print := by
  have hname := Spaced.of_isWord k.name.isWord
  unfold Key.print
  split
  · exact hname.append (.char (by decide) (by decide))
  · simpa using hname

theorem spaced_label (label : Label) : Spaced ('\'' :: (label.chars ++ ['\''])) := by
  refine Spaced.of_solid (List.cons_ne_nil _ _) ?_
  intro c hc
  simp only [List.mem_cons, List.mem_append, List.not_mem_nil, or_false] at hc
  rcases hc with rfl | hc | rfl
  · decide
  · have hw := List.all_eq_true.mp label.areWordChars c hc
    exact ⟨isBlank_of_isIdentifierChar hw, ne_of_isIdentifierChar hw (by decide)⟩
  · decide

namespace Ty

theorem spaced_printMember {m : Key × Ty} (h : Spaced m.2.print) : Spaced (printMember m) :=
  by
  have hcolon : Spaced [':'] := .char (by decide) (by decide)
  simpa [printMember] using ((spaced_key m.1).append hcolon).space h

theorem forall_printMember {ms : List (Key × Ty)} (h : ∀ m ∈ ms, Spaced m.2.print) :
    ∀ x ∈ ms.map printMember, Spaced x := by
  intro x hx
  obtain ⟨m, hm, rfl⟩ := List.mem_map.mp hx
  exact spaced_printMember (h m hm)

theorem spaced_print (t : Ty) : Spaced t.print := by
  induction t using Ty.induct with
  | path first tail => exact spaced_path first tail
  | generic first tail arguments ih =>
    rw [print, printAll_eq_map, ← List.append_assoc]
    refine (spaced_path first tail).append
      (.enclosed (.char (by decide) (by decide)) (.char (by decide) (by decide)) ?_)
    simpa using ih
  | array item ih =>
    rw [print]
    refine Spaced.append ?_ (.pair (.char (by decide) (by decide)) (.char (by decide) (by decide)))
    split
    · exact .enclosed (.char (by decide) (by decide)) (.char (by decide) (by decide)) (by simpa)
    · exact ih
  | tuple items ih =>
    rw [print, printAll_eq_map]
    exact .enclosed (.char (by decide) (by decide)) (.char (by decide) (by decide)) (by simpa)
  | group inner ih =>
    exact .enclosed (.char (by decide) (by decide)) (.char (by decide) (by decide)) (by simpa)
  | join left mark right ihl ihr =>
    have hmark : Spaced [mark.char] := by cases mark <;> exact .char (by decide) (by decide)
    exact ihl.space (hmark.space ihr)
  | literal label => exact spaced_label label
  | object members ih =>
    rw [print, printMembers_eq_map]
    exact .braced (forall_printMember ih)
  | function parameters result ihp ihr =>
    have harrow : Spaced ['=', '>'] :=
      .pair (.char (by decide) (by decide)) (.char (by decide) (by decide))
    rw [print, printMembers_eq_map]
    have hps : Spaced (enclosed '(' ')' (parameters.map printMember)) :=
      .enclosed (.char (by decide) (by decide)) (.char (by decide) (by decide))
        (forall_printMember ihp)
    exact hps.space (harrow.space ihr)

end Ty

end ElementWrappers.TypeExpr
