import Mathlib
import ElementWrappers.TypeExpr.Shape

/-!
# Parts of type texts

What the form that the classifier finds says about a text, balanced or not: how
the text is put together from the parts that are qualified on their own.
-/

namespace ElementWrappers.TypeExpr

/-! ## Lists -/

/-- What no literal covers stands where none is open. -/
theorem Quotes.of_covers_eq_false {q : Quotes} {c : Char} (h : q.covers c = false) :
    q.opened = none ∧ isQuote c = false := by
  rw [Quotes.covers, Bool.or_eq_false_iff] at h
  exact ⟨Option.not_isSome_iff_eq_none.mp (by simp [h.1]), h.2⟩

/-- A separator stands outside brackets and literals. -/
theorem Scan.of_cuts {separators : List Char} {s : Scan} {c : Char}
    (h : s.cuts separators c = true) :
    s.quotes.opened = none ∧ isQuote c = false ∧ s.depth = 0 ∧ c ∈ separators := by
  simp only [Scan.cuts, Bool.and_eq_true, Bool.not_eq_true', beq_iff_eq,
    List.contains_iff_mem] at h
  obtain ⟨⟨hcovers, hdepth⟩, hc⟩ := h
  obtain ⟨hopened, hquote⟩ := Quotes.of_covers_eq_false hcovers
  exact ⟨hopened, hquote, hdepth, hc⟩

/-- Pieces with a separator after each but the last. -/
inductive Parted (separators : List Char) : List Piece → Prop
  | last (text : List Char) : Parted separators [⟨text, none⟩]
  | part (text : List Char) {c : Char} {rest : List Piece} (hc : c ∈ separators)
      (h : Parted separators rest) : Parted separators (⟨text, some c⟩ :: rest)

theorem Parted.pushFront {separators : List Char} {pieces : List Piece}
    (h : Parted separators pieces) (c : Char) : Parted separators (pushFront c pieces) := by
  cases h with
  | last text => exact .last (c :: text)
  | part text hc h => exact .part (c :: text) hc h

theorem parted_splitFrom (separators : List Char) (s : Scan) (text : List Char) :
    Parted separators (splitFrom separators s text) := by
  induction text generalizing s with
  | nil => exact .last []
  | cons c rest ih =>
    rw [splitFrom]
    split
    · rename_i hc
      exact .part [] (Scan.of_cuts hc).2.2.2 (ih _)
    · exact (ih _).pushFront c

/-! ## Brackets and names -/

section Parts

variable {text inner base arguments first rest blanks name after : List Char} {o c : Char}

/-- A text that closes its bracket at the end ends with that bracket. -/
theorem dropLast_append_of_closesAtEnd {previous : Char} {depth : Nat}
    (h : closesAtEnd o c previous depth text = true) : text.dropLast ++ [c] = text := by
  induction text generalizing previous depth with
  | nil => cases h
  | cons d rest ih =>
    -- The rest is empty only where `d` closes the bracket.
    have hlast : ∀ {p : Char} {n : Nat}, closesAtEnd o c p n rest = true →
        (d :: rest).dropLast ++ [c] = d :: rest := by
      intro p n hr
      cases rest with
      | nil => cases hr
      | cons e rest => rw [List.dropLast_cons_cons, List.cons_append, ih hr]
    rw [closesAtEnd.eq_def] at h
    simp only at h
    split at h
    · exact hlast h
    split at h
    · rename_i hd
      simp only [Bool.and_eq_true, decide_eq_true_eq] at hd
      cases depth with
      | zero => rw [List.isEmpty_iff.mp h, hd.1]; rfl
      | succ n => exact hlast h
    · exact hlast h

theorem eq_of_enclosed? (h : enclosed? o c text = some inner) : text = o :: (inner ++ [c]) := by
  unfold enclosed? at h
  split at h
  · cases h
  · split at h
    · rename_i d rest hd
      simp only [Bool.and_eq_true, decide_eq_true_eq] at hd
      cases h
      rw [dropLast_append_of_closesAtEnd hd.2, hd.1]
    · cases h

theorem eq_of_arrayItem? (h : arrayItem? text = some inner) : text = inner ++ ['[', ']'] := by
  unfold arrayItem? at h
  split at h
  · rename_i hs
    obtain ⟨item, rfl⟩ := List.isSuffixOf_iff_suffix.mp hs
    cases h
    simp
  · cases h

theorem eq_of_generic? (h : generic? text = some (base, arguments)) :
    text = base ++ '<' :: (arguments ++ ['>']) := by
  unfold generic? at h
  split at h
  · cases h
  · rename_i d rest hd
    have hne : text.dropWhile (· != '<') ≠ [] := by rw [hd]; exact List.cons_ne_nil _ _
    have hstop := List.head_dropWhile_not (· != '<') hne
    simp only [hd, List.head_cons, bne_eq_false_iff_eq] at hstop
    subst hstop
    split at h
    · rename_i hc
      cases h
      rw [dropLast_append_of_closesAtEnd hc, ← hd, List.takeWhile_append_dropWhile]
    · cases h

/-- A dotted name is a name, and a dot with what follows. -/
theorem of_path? (h : path? text = some (first, rest)) :
    isName first = true ∧ text = first ++ rest ∧ rest.head? = some '.' := by
  unfold path? at h
  split at h
  · rename_i x next more hs
    split at h
    · rename_i hall
      obtain ⟨rfl, rfl⟩ := Prod.mk.inj (Option.some.inj h)
      have ht : text = x ++ '.' :: ['.'].intercalate (next :: more) := by
        have hjoin : ['.'].intercalate (text.splitOn '.') = text := List.intercalate_splitOn '.'
        rw [← hjoin, hs]
        simp [List.intercalate_cons_cons]
      rw [ht, List.drop_left]
      exact ⟨(List.all_eq_true.mp hall) _ List.mem_cons_self, rfl, rfl⟩
    · cases h
  · cases h

/-- What a text begins with: blanks, a name that goes on as far as it can, and
the rest. -/
theorem of_leadingName? (h : leadingName? text = some (blanks, name, after)) :
    text = blanks ++ (name ++ after) ∧ (∀ c ∈ blanks, Text.isBlank c = true) ∧
      isName name = true ∧ ∀ c, after.head? = some c → isNamePart c = false := by
  simp only [leadingName?] at h
  split at h
  · cases h
  · rename_i d more hd
    split at h
    · rename_i hstart
      cases h
      refine ⟨?_, fun c hc => List.mem_takeWhile_imp hc, ?_, ?_⟩
      · rw [List.cons_append, List.takeWhile_append_dropWhile, ← hd,
          List.takeWhile_append_dropWhile]
      · rw [isName, hstart, Bool.true_and]
        exact List.all_takeWhile
      · intro c hc
        have hne : more.dropWhile isNamePart ≠ [] := by
          intro hn
          rw [hn] at hc
          cases hc
        have hstop := List.head_dropWhile_not isNamePart hne
        rw [List.head?_eq_some_head hne, Option.some.injEq] at hc
        rwa [hc] at hstop
    · cases h

end Parts

/-! ## Forms -/

/-- What the form of a text says about the text. -/
inductive Shape.Describes (text : List Char) : Shape → Prop
  | fixed : Describes text .fixed
  | members : Describes text (.members (split ['|', '&'] text))
  | object : Describes text .object
  | array {item : List Char} (parts : text = item ++ ['[', ']']) : Describes text (.array item)
  | group {inner : List Char} (parts : text = '(' :: (inner ++ [')'])) : Describes text (.group inner)
  | tuple {inner : List Char} (parts : text = '[' :: (inner ++ [']'])) :
    Describes text (.tuple (listItems inner))
  | generic {base inner : List Char} (parts : text = base ++ '<' :: (inner ++ ['>'])) :
    Describes text (.generic base (listItems inner))
  | path {first rest : List Char} (isName : isName first = true) (parts : text = first ++ rest)
      (dot : rest.head? = some '.') : Describes text (.path first rest)
  | name (isName : isName text = true) : Describes text .name

theorem Shape.describes_ofSingle (text : List Char) : (Shape.ofSingle text).Describes text := by
  unfold Shape.ofSingle
  split
  · rename_i h
    exact .array (eq_of_arrayItem? h)
  split
  · rename_i h
    exact .group (eq_of_enclosed? h)
  split
  · rename_i h
    exact .tuple (eq_of_enclosed? h)
  split
  · rename_i h
    exact .generic (eq_of_generic? h)
  split
  · rename_i h
    obtain ⟨hn, hp, hd⟩ := of_path? h
    exact .path hn hp hd
  split
  · rename_i h
    exact .name h
  · exact .fixed

theorem Shape.describes_of (text : List Char) : (Shape.of text).Describes text := by
  unfold Shape.of
  split
  · exact .fixed
  split
  · exact .members
  split
  · exact .fixed
  split
  · exact .object
  · exact describes_ofSingle text

/-- The parts of a text have no other characters. -/
theorem Shape.Describes.subset {text : List Char} {s : Shape} (h : s.Describes text) {part : List Char}
    (hp : part ∈ s.inner) : part ⊆ text := by
  have hpiece : ∀ {separators text : List Char} {p : Piece}, p ∈ split separators text →
      p.text ⊆ text := by
    intro separators text p hp c hc
    obtain ⟨before, after, he⟩ := List.append_of_mem hp
    rw [split_pieces he]
    simp [hc]
  have hitems : ∀ {text item : List Char}, item ∈ listItems text → item ⊆ text := by
    intro text item hi
    obtain ⟨p, hp, rfl⟩ := List.mem_map.mp hi
    exact hpiece hp
  cases h with
  | fixed | object | path | name => cases hp
  | members =>
    obtain ⟨p, hm, rfl⟩ := List.mem_map.mp hp
    exact hpiece hm
  | array parts =>
    obtain rfl := List.mem_singleton.mp hp
    rw [parts]
    exact List.subset_append_left _ _
  | group parts =>
    obtain rfl := List.mem_singleton.mp hp
    rw [parts]
    exact fun c hc => by simp [hc]
  | tuple parts =>
    rw [parts]
    exact fun c hc => by simp [hitems hp hc]
  | generic parts =>
    rw [parts]
    rcases List.mem_cons.mp hp with rfl | hp
    · exact List.subset_append_left _ _
    · exact fun c hc => by simp [hitems hp hc]

end ElementWrappers.TypeExpr
