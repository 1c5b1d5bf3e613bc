import Mathlib
import ElementWrappers.TypeExpr.Resolve

/-!
# Renaming all words at once

`mapWords f` reads a text word by word and applies `f` to every word that is a
use of a type. Renaming one name after the other, as `renameAll` does, is one
such reading: `renameAll_eq_mapWords`.
-/

namespace ElementWrappers.TypeExpr

/-! ## Characters of words -/

/-- Characters that end a word wherever they stand. -/
def breaks : List Char :=
  [' ', '<', '>', '(', ')', '[', ']', '\x7b', '\x7d', ',', ';', ':', '?', '|', '&', '=', '.', '\'',
    '"', '\x60', '\\']

theorem not_isIdentifierChar_of_mem_breaks {c : Char} (h : c ∈ breaks) :
    isIdentifierChar c = false := by
  have hall : breaks.all (fun c => !isIdentifierChar c) = true := by decide +kernel
  simpa using List.all_eq_true.mp hall c h

theorem ne_of_isIdentifierChar {c d : Char} (hc : isIdentifierChar c = true) (hd : d ∈ breaks) :
    c ≠ d := by
  rintro rfl
  rw [not_isIdentifierChar_of_mem_breaks hd] at hc
  cases hc

theorem isQuote_of_isIdentifierChar {c : Char} (hc : isIdentifierChar c = true) :
    isQuote c = false := by
  simp only [isQuote, Bool.or_eq_false_iff, beq_eq_false_iff_ne]
  exact ⟨⟨ne_of_isIdentifierChar hc (by decide), ne_of_isIdentifierChar hc (by decide)⟩,
    ne_of_isIdentifierChar hc (by decide)⟩

/-- The blanks, one by one. -/
def blanks : List Nat :=
  [9, 10, 11, 12, 13, 0x20, 0x85, 0xA0, 0x1680, 0x2000, 0x2001, 0x2002, 0x2003, 0x2004, 0x2005,
    0x2006, 0x2007, 0x2008, 0x2009, 0x200A, 0x2028, 0x2029, 0x202F, 0x205F, 0x3000]

theorem mem_blanks {c : Char} (h : Text.isBlank c = true) : c.toNat ∈ blanks := by
  simp only [Text.isBlank, Bool.or_eq_true, Bool.and_eq_true, decide_eq_true_eq, beq_iff_eq] at h
  simp only [blanks, List.mem_cons, List.not_mem_nil, or_false]
  omega

theorem isIdentifierChar_of_isBlank {c : Char} (h : Text.isBlank c = true) :
    isIdentifierChar c = false := by
  have hall : ∀ n ∈ blanks, isIdentifierChar (Char.ofNat n) = false := by decide +kernel
  have := hall c.toNat (mem_blanks h)
  rwa [Char.ofNat_toNat] at this

theorem isBlank_of_isIdentifierChar {c : Char} (h : isIdentifierChar c = true) :
    Text.isBlank c = false := by
  by_contra hb
  rw [Bool.not_eq_false] at hb
  rw [isIdentifierChar_of_isBlank hb] at h
  cases h

/-- A run of word characters. -/
structure IsWord (w : List Char) : Prop where
  ne_nil : w ≠ []
  chars : ∀ c ∈ w, isIdentifierChar c = true

theorem wordMayEnd_cons {c : Char} {rest : List Char} :
    wordMayEnd (c :: rest) = true ↔ isIdentifierChar c = false := by
  simp [wordMayEnd]

/-- Behind a run of word characters a word may end. -/
theorem wordMayEnd_dropWhile (x : List Char) : wordMayEnd (x.dropWhile isIdentifierChar) = true := by
  cases hd : x.dropWhile isIdentifierChar with
  | nil => rfl
  | cons d z =>
    have hne : x.dropWhile isIdentifierChar ≠ [] := by rw [hd]; exact List.cons_ne_nil _ _
    have hstop := List.head_dropWhile_not isIdentifierChar hne
    simp only [hd, List.head_cons] at hstop
    exact wordMayEnd_cons.mpr hstop

theorem takeWhile_word {w after : List Char} (hw : ∀ c ∈ w, isIdentifierChar c = true)
    (ha : wordMayEnd after = true) :
    (w ++ after).takeWhile isIdentifierChar = w ∧
      (w ++ after).dropWhile isIdentifierChar = after := by
  rw [List.takeWhile_append_of_pos hw, List.dropWhile_append_of_pos hw]
  cases after with
  | nil => exact ⟨List.append_nil w, rfl⟩
  | cons d after =>
    rw [List.takeWhile_cons, List.dropWhile_cons, wordMayEnd_cons.mp ha]
    exact ⟨List.append_nil w, rfl⟩

/-! ## Places -/

/-- What the characters before a place say about a word that begins there. -/
structure Place where
  /-- A word may begin. -/
  begins : Bool := true
  /-- A key of an object may begin. -/
  listed : Bool := false
  /-- The quote of the literal that is open. -/
  opened : Option Char := none
  escaped : Bool := false
  deriving DecidableEq, Repr

namespace Place

/-- The place after the characters `before`, the nearest first. -/
def of (before : List Char) (quotes : Quotes) : Place where
  begins := wordMayBegin before
  listed := match Text.trimStart before with
    | c :: _ => c == '\x7b' || c == ',' || c == ';'
    | [] => false
  opened := quotes.opened
  escaped := quotes.previous == some '\\'

def step (p : Place) (c : Char) : Place where
  begins := !isIdentifierChar c && c != '.'
  listed := if Text.isBlank c then p.listed else c == '\x7b' || c == ',' || c == ';'
  opened := match p.opened with
    | some d => if c = d ∧ p.escaped = false then none else some d
    | none => if isQuote c then some c else none
  escaped := c == '\\'

/-- The place after a word. -/
def afterWord (p : Place) : Place := ⟨false, false, p.opened, false⟩

/-- Whether the word that begins here is a use of a type. -/
def uses (p : Place) (after : List Char) : Bool :=
  p.begins && p.opened.isNone && !(p.listed && startsLikeKeyEnd after)

/-- Only quotes open literals. -/
def IsQuoted (p : Place) : Prop := ∀ d, p.opened = some d → isQuote d = true

theorem step_of (before : List Char) (quotes : Quotes) (c : Char) :
    (of before quotes).step c = of (c :: before) (quotes.step c) := by
  have hl : Text.trimStart (c :: before) =
      if Text.isBlank c then Text.trimStart before else c :: before := by
    rw [Text.trimStart, List.dropWhile_cons]
    rfl
  unfold step of
  rw [hl]
  congr 1
  · by_cases hb : Text.isBlank c = true
    · rw [if_pos hb, if_pos hb]
    · rw [if_neg hb, if_neg hb]
  · cases ho : quotes.opened with
    | none => simp [Quotes.step, ho]
    | some d => simp [Quotes.step, ho]

theorem step_word (p : Place) {c : Char} (hp : p.IsQuoted) (hc : isIdentifierChar c = true) :
    p.step c = p.afterWord := by
  have hb := isBlank_of_isIdentifierChar hc
  unfold step afterWord
  congr 1
  · simp [hc]
  · rw [hb, if_neg Bool.false_ne_true]
    simp [ne_of_isIdentifierChar hc (show '\x7b' ∈ breaks by decide),
      ne_of_isIdentifierChar hc (show ',' ∈ breaks by decide),
      ne_of_isIdentifierChar hc (show ';' ∈ breaks by decide)]
  · cases ho : p.opened with
    | none => simp [isQuote_of_isIdentifierChar hc]
    | some d =>
      have hd : c ≠ d := by
        rintro rfl
        have hq := isQuote_of_isIdentifierChar hc
        rw [hp c ho] at hq
        cases hq
      simp [hd]
  · simp [ne_of_isIdentifierChar hc (show '\\' ∈ breaks by decide)]

theorem IsQuoted.step {p : Place} (hp : p.IsQuoted) (c : Char) : (p.step c).IsQuoted := by
  intro d hd
  unfold Place.step at hd
  cases ho : p.opened with
  | none =>
    rw [ho] at hd
    simp only at hd
    split at hd
    · cases hd
      assumption
    · cases hd
  | some e =>
    rw [ho] at hd
    simp only at hd
    split at hd
    · cases hd
    · cases hd
      exact hp _ ho

end Place

/-! ## Reading words -/

/-- Applies `f` to every word that is a use of a type. -/
def mapWords (f : List Char → List Char) (p : Place) (text : List Char) : List Char :=
  match text with
  | [] => []
  | c :: rest =>
    if isIdentifierChar c then
      let word := c :: rest.takeWhile isIdentifierChar
      let after := rest.dropWhile isIdentifierChar
      have := Text.length_dropWhile_le isIdentifierChar rest
      (if p.uses after then f word else word) ++ mapWords f p.afterWord after
    else c :: mapWords f (p.step c) rest
termination_by text.length

section MapWords

variable {f g : List Char → List Char} {p : Place} {w after : List Char}

@[simp] theorem mapWords_nil : mapWords f p [] = [] := by rw [mapWords]

theorem mapWords_char {c : Char} (hc : isIdentifierChar c = false) (rest : List Char) :
    mapWords f p (c :: rest) = c :: mapWords f (p.step c) rest := by
  rw [mapWords, if_neg (by rw [hc]; exact Bool.false_ne_true)]

theorem mapWords_word (hw : IsWord w) (ha : wordMayEnd after = true) :
    mapWords f p (w ++ after) =
      (if p.uses after then f w else w) ++ mapWords f p.afterWord after := by
  obtain ⟨hne, hc⟩ := hw
  cases w with
  | nil => exact absurd rfl hne
  | cons c rest =>
    have hrest : ∀ d ∈ rest, isIdentifierChar d = true := fun d hd => hc d (List.mem_cons_of_mem _ hd)
    rw [List.cons_append, mapWords, if_pos (hc c List.mem_cons_self)]
    simp only
    rw [(takeWhile_word hrest ha).1, (takeWhile_word hrest ha).2]

end MapWords

/-- Texts are made of words and of characters between them. -/
theorem words_induction {P : List Char → Prop} (nil : P [])
    (char : ∀ c rest, isIdentifierChar c = false → P rest → P (c :: rest))
    (word : ∀ w after, IsWord w → wordMayEnd after = true → P after → P (w ++ after))
    (text : List Char) : P text := by
  induction hn : text.length using Nat.strongRecOn generalizing text with
  | ind n ih =>
    subst hn
    cases text with
    | nil => exact nil
    | cons c rest =>
      by_cases hc : isIdentifierChar c = true
      · have hl := Text.length_dropWhile_le isIdentifierChar rest
        have hw : IsWord (c :: rest.takeWhile isIdentifierChar) := by
          refine ⟨List.cons_ne_nil _ _, ?_⟩
          intro d hd
          rcases List.mem_cons.mp hd with rfl | hd
          · exact hc
          · exact List.mem_takeWhile_imp hd
        have he : c :: rest = (c :: rest.takeWhile isIdentifierChar) ++
            rest.dropWhile isIdentifierChar := by
          rw [List.cons_append, List.takeWhile_append_dropWhile]
        rw [he]
        exact word _ _ hw (wordMayEnd_dropWhile rest) (ih _ (Nat.lt_succ_of_le hl) _ rfl)
      · exact char c rest (Bool.eq_false_of_not_eq_true hc) (ih _ (Nat.lt_succ_self _) _ rfl)

/-! ## Renaming one name -/

/-- What becomes of a word when one name is renamed. -/
def replaceWord (name replacement w : List Char) : List Char := if w = name then replacement else w

section Rename

variable {name replacement before : List Char} {quotes : Quotes}

theorem renameFrom_kept (kept : Bool) (text : List Char) :
    renameFrom name replacement before quotes 0 kept text =
      renameFrom name replacement before quotes 0 true text := by
  cases text with
  | nil => rw [renameFrom, renameFrom]
  | cons c rest => rw [renameFrom, renameFrom]

/-- The rest of an occurrence is copied or dropped. -/
theorem renameFrom_rest (kept : Bool) (u rest : List Char) :
    renameFrom name replacement before quotes u.length kept (u ++ rest) =
      (if kept then u else []) ++
        renameFrom name replacement (u.reverse ++ before) (u.foldl Quotes.step quotes) 0 true rest := by
  induction u generalizing before quotes with
  | nil =>
    rw [List.length_nil, List.nil_append, renameFrom_kept]
    cases kept <;> rfl
  | cons c u ih =>
    rw [List.length_cons, List.cons_append, renameFrom, ih]
    cases kept <;> simp

theorem wordMayBegin_reverse {w : List Char} (hw : IsWord w) :
    wordMayBegin (w.reverse ++ before) = false := by
  rcases List.eq_nil_or_concat w with rfl | ⟨u, c, rfl⟩
  · exact absurd rfl hw.ne_nil
  · have hc := hw.chars c (by simp)
    simp [wordMayBegin, hc]

/-- A name at the start of a word and what follows lies inside the word. -/
theorem prefix_of_prefix_word {u rest : List Char} (hn : ∀ c ∈ name, isIdentifierChar c = true)
    (hr : wordMayEnd rest = true) (hp : name <+: u ++ rest) : name <+: u := by
  obtain ⟨t, ht⟩ := hp
  rcases List.append_eq_append_iff.mp ht with ⟨v, hv, -⟩ | ⟨v, hv, hrest⟩
  · cases v with
    | nil => exact ⟨[], by simpa using hv.symm⟩
    | cons d v => exact ⟨d :: v, hv.symm⟩
  · cases v with
    | nil => exact ⟨[], by simpa using hv⟩
    | cons d v =>
      rw [hrest, List.cons_append, wordMayEnd_cons] at hr
      rw [hn d (by simp [hv])] at hr
      cases hr

/-- An occurrence is replaced or copied as a whole. -/
theorem renameFrom_found {c : Char} {tail : List Char} (rest : List Char) :
    renameFrom (c :: tail) replacement before quotes 0 true (c :: tail ++ rest) =
      (if !quotes.covers c && isUse before rest then replacement else c :: tail) ++
        renameFrom (c :: tail) replacement ((c :: tail).reverse ++ before)
          ((c :: tail).foldl Quotes.step quotes) 0 true rest := by
  have hp : (c :: tail).isPrefixOf (c :: (tail ++ rest)) = true :=
    List.isPrefixOf_iff_prefix.mpr ⟨rest, rfl⟩
  have hd : (c :: (tail ++ rest)).drop (c :: tail).length = rest := by simp
  rw [List.cons_append, renameFrom, if_pos hp, hd]
  by_cases hu : (!quotes.covers c && isUse before rest) = true
  · rw [if_pos hu, if_pos hu]
    simp only [List.isEmpty_cons, Bool.false_eq_true, ↓reduceIte, List.append_nil,
      List.length_cons, Nat.add_sub_cancel]
    rw [renameFrom_rest]
    simp
  · rw [if_neg hu, if_neg hu, List.length_cons, Nat.add_sub_cancel, renameFrom_rest]
    simp

/-- The empty name occurs before every character. -/
theorem renameFrom_empty (c : Char) (rest : List Char) :
    renameFrom [] replacement before quotes 0 true (c :: rest) =
      (if !quotes.covers c && isUse before (c :: rest) then replacement else []) ++
        c :: renameFrom [] replacement (c :: before) (quotes.step c) 0 true rest := by
  rw [renameFrom, if_pos (by rfl)]
  simp only [List.length_nil, List.drop_zero, Nat.zero_sub, List.isEmpty_nil, ↓reduceIte]
  split
  · rw [renameFrom_kept, List.append_assoc]
    rfl
  · rfl

/-- An occurrence is replaced if it is a use, and copied if it is none. -/
theorem renameFrom_occurrence (hn : IsWord name) (rest : List Char) :
    renameFrom name replacement before quotes 0 true (name ++ rest) =
      (if quotes.opened.isNone && isUse before rest then replacement else name) ++
        renameFrom name replacement (name.reverse ++ before) (name.foldl Quotes.step quotes) 0 true
          rest := by
  obtain ⟨c, tail, rfl⟩ := List.exists_cons_of_ne_nil hn.ne_nil
  have hq : (!quotes.covers c) = quotes.opened.isNone := by
    rw [Quotes.covers, isQuote_of_isIdentifierChar (hn.chars c List.mem_cons_self), Bool.or_false]
    cases quotes.opened <;> rfl
  rw [renameFrom_found, hq]

theorem renameFrom_other {c : Char} {rest : List Char} (hp : ¬ name <+: c :: rest) :
    renameFrom name replacement before quotes 0 true (c :: rest) =
      c :: renameFrom name replacement (c :: before) (quotes.step c) 0 true rest := by
  rw [renameFrom, if_neg fun h => hp (List.isPrefixOf_iff_prefix.mp h)]

/-- Inside a word nothing is a use. -/
theorem renameFrom_inside (hn : IsWord name) {u rest : List Char}
    (hu : ∀ c ∈ u, isIdentifierChar c = true) (hr : wordMayEnd rest = true)
    (hb : wordMayBegin before = false) :
    renameFrom name replacement before quotes 0 true (u ++ rest) =
      u ++ renameFrom name replacement (u.reverse ++ before) (u.foldl Quotes.step quotes) 0 true
        rest := by
  induction hl : u.length using Nat.strongRecOn generalizing u before quotes with
  | ind n ih =>
    subst hl
    by_cases hp : name <+: u ++ rest
    · obtain ⟨v, rfl⟩ := prefix_of_prefix_word hn.chars hr hp
      have hl : v.length < (name ++ v).length := by
        have := List.length_pos_iff.mpr hn.ne_nil
        rw [List.length_append]
        omega
      have huse : isUse before (v ++ rest) = false := by simp [isUse, hb]
      rw [List.append_assoc, renameFrom_occurrence hn, huse, Bool.and_false, if_neg (by decide),
        ih _ hl (fun c hc => hu c (List.mem_append_right _ hc)) (wordMayBegin_reverse hn) rfl]
      simp
    · cases u with
      | nil => rfl
      | cons c u =>
        have hb' : wordMayBegin (c :: before) = false := by
          simp [wordMayBegin, hu c List.mem_cons_self]
        rw [List.cons_append] at hp ⊢
        rw [renameFrom_other hp,
          ih _ (Nat.lt_succ_self _) (fun d hd => hu d (List.mem_cons_of_mem _ hd)) hb' rfl]
        simp

/-- A whole word is replaced if it is the name and a use. -/
theorem renameFrom_word (hn : IsWord name) {w rest : List Char} (hw : IsWord w)
    (hr : wordMayEnd rest = true) :
    renameFrom name replacement before quotes 0 true (w ++ rest) =
      (if quotes.opened.isNone && isUse before rest then replaceWord name replacement w else w) ++
        renameFrom name replacement (w.reverse ++ before) (w.foldl Quotes.step quotes) 0 true
          rest := by
  by_cases hp : name <+: w ++ rest
  · obtain ⟨v, rfl⟩ := prefix_of_prefix_word hn.chars hr hp
    have hv : ∀ c ∈ v, isIdentifierChar c = true := fun c hc => hw.chars c (List.mem_append_right _ hc)
    cases v with
    | nil =>
      rw [List.append_nil, renameFrom_occurrence hn, replaceWord, if_pos rfl]
    | cons d v =>
      have hne : name ++ d :: v ≠ name := by simp
      have huse : isUse before (d :: v ++ rest) = false := by
        simp [isUse, wordMayEnd, hv d List.mem_cons_self]
      rw [replaceWord, if_neg hne, ite_self, List.append_assoc, renameFrom_occurrence hn, huse,
        Bool.and_false, if_neg (by decide), renameFrom_inside hn hv hr (wordMayBegin_reverse hn)]
      simp
  · have hne : w ≠ name := by
      rintro rfl
      exact hp (List.prefix_append _ _)
    rw [replaceWord, if_neg hne, ite_self]
    cases w with
    | nil => exact absurd rfl hw.ne_nil
    | cons c u =>
      have hb : wordMayBegin (c :: before) = false := by
        simp [wordMayBegin, hw.chars c List.mem_cons_self]
      rw [List.cons_append] at hp ⊢
      rw [renameFrom_other hp,
        renameFrom_inside hn (fun d hd => hw.chars d (List.mem_cons_of_mem _ hd)) hr hb]
      simp

theorem Place.uses_of {after : List Char} (ha : wordMayEnd after = true) :
    (Place.of before quotes).uses after = (quotes.opened.isNone && isUse before after) := by
  have hk : isKey before after = ((Place.of before quotes).listed && startsLikeKeyEnd after) := rfl
  rw [isUse, hk, ha, Bool.and_true, Place.uses]
  show (wordMayBegin before && quotes.opened.isNone && _) = _
  rw [Bool.and_comm (wordMayBegin before), Bool.and_assoc]

theorem Place.of_word {w : List Char} (hw : IsWord w) (hq : (Place.of before quotes).IsQuoted) :
    Place.of (w.reverse ++ before) (w.foldl Quotes.step quotes) =
      (Place.of before quotes).afterWord := by
  obtain ⟨hne, hc⟩ := hw
  induction w generalizing before quotes with
  | nil => exact absurd rfl hne
  | cons c u ih =>
    have hstep := (Place.of before quotes).step_word hq (hc c List.mem_cons_self)
    rw [Place.step_of] at hstep
    cases u with
    | nil => exact hstep
    | cons d u =>
      have hq' : (Place.of (c :: before) (quotes.step c)).IsQuoted := by
        rw [← Place.step_of]
        exact hq.step c
      have := ih hq' (List.cons_ne_nil _ _) fun e he => hc e (List.mem_cons_of_mem _ he)
      rw [hstep] at this
      rw [List.reverse_cons, List.append_assoc, List.foldl_cons]
      exact this

theorem Place.isQuoted_start : Place.IsQuoted {} := by
  intro d hd
  cases hd

theorem Place.IsQuoted.afterWord {p : Place} (hp : p.IsQuoted) : p.afterWord.IsQuoted := hp

theorem renameFrom_eq_mapWords (hn : IsWord name) (hq : (Place.of before quotes).IsQuoted)
    (text : List Char) :
    renameFrom name replacement before quotes 0 true text =
      mapWords (replaceWord name replacement) (Place.of before quotes) text := by
  induction text using words_induction generalizing before quotes with
  | nil =>
    rw [renameFrom, mapWords_nil, List.isEmpty_eq_false_iff.mpr hn.ne_nil, Bool.false_and]
    exact if_neg Bool.false_ne_true
  | char c rest hc ih =>
    have hp : ¬ name <+: c :: rest := by
      rintro ⟨t, ht⟩
      cases hname : name with
      | nil => exact hn.ne_nil hname
      | cons d tail =>
        rw [hname, List.cons_append, List.cons.injEq] at ht
        have hd := hn.chars d (by rw [hname]; exact List.mem_cons_self)
        rw [ht.1, hc] at hd
        cases hd
    have hq' : (Place.of (c :: before) (quotes.step c)).IsQuoted := by
      rw [← Place.step_of]
      exact hq.step c
    rw [renameFrom_other hp, mapWords_char hc, ih hq', Place.step_of]
  | word w after hw ha ih =>
    have hplace := Place.of_word hw hq
    have hq' : (Place.of (w.reverse ++ before) (w.foldl Quotes.step quotes)).IsQuoted := by
      rw [hplace]
      exact hq.afterWord
    rw [renameFrom_word hn hw ha, mapWords_word hw ha, ih hq', hplace, Place.uses_of ha]

theorem rename_eq_mapWords (hn : IsWord name) (text : List Char) :
    rename name replacement text = mapWords (replaceWord name replacement) {} text := by
  have hq : (Place.of [] {}).IsQuoted := Place.isQuoted_start
  exact renameFrom_eq_mapWords hn hq text

end Rename

/-! ## Renaming several names -/

section Compose

variable {f g : List Char → List Char} {p : Place}

/-- A renaming that makes words of words. -/
def KeepsWords (f : List Char → List Char) : Prop := ∀ w, IsWord w → IsWord (f w)

theorem wordMayEnd_word {w : List Char} (hw : IsWord w) (rest : List Char) :
    wordMayEnd (w ++ rest) = false := by
  cases w with
  | nil => exact absurd rfl hw.ne_nil
  | cons c u => simp [wordMayEnd, hw.chars c List.mem_cons_self]

theorem startsLikeKeyEnd_blank {c : Char} (hc : Text.isBlank c = true) (rest : List Char) :
    startsLikeKeyEnd (c :: rest) = startsLikeKeyEnd rest := by
  rw [startsLikeKeyEnd, Text.trimStart, List.dropWhile_cons_of_pos hc]
  rfl

theorem startsLikeKeyEnd_cons {c : Char} (hc : Text.isBlank c = false) (rest : List Char) :
    startsLikeKeyEnd (c :: rest) = (c == ':' || c == '?' && rest.head? == some ':') := by
  rw [startsLikeKeyEnd, Text.trimStart,
    List.dropWhile_cons_of_neg (by rw [hc]; exact Bool.false_ne_true)]
  split
  · rename_i h
    cases h
    rfl
  · rename_i h
    cases h
    rfl
  · rename_i h1 h2
    have hcolon : c ≠ ':' := fun h => h1 rest (by rw [h])
    by_cases hq : c = '?'
    · cases rest with
      | nil => simp [hq]
      | cons d rest =>
        have hd : d ≠ ':' := fun h => h2 rest (by rw [hq, h])
        simp [hq, hd]
    · simp [hcolon, hq]

theorem startsLikeKeyEnd_word {w : List Char} (hw : IsWord w) (rest : List Char) :
    startsLikeKeyEnd (w ++ rest) = false := by
  cases w with
  | nil => exact absurd rfl hw.ne_nil
  | cons c u =>
    have hc := hw.chars c List.mem_cons_self
    rw [List.cons_append, startsLikeKeyEnd_cons (isBlank_of_isIdentifierChar hc)]
    simp [ne_of_isIdentifierChar hc (show ':' ∈ breaks by decide),
      ne_of_isIdentifierChar hc (show '?' ∈ breaks by decide)]

theorem isWord_ite (hf : KeepsWords f) {w : List Char} (hw : IsWord w) (c : Prop) [Decidable c] :
    IsWord (if c then f w else w) := by
  split
  · exact hf w hw
  · exact hw

theorem wordMayEnd_mapWords (hf : KeepsWords f) (text : List Char) :
    wordMayEnd (mapWords f p text) = wordMayEnd text := by
  cases text using words_induction with
  | nil => rw [mapWords_nil]
  | char c rest hc => simp [mapWords_char hc, wordMayEnd]
  | word w after hw ha =>
    rw [mapWords_word hw ha, wordMayEnd_word hw, wordMayEnd_word (isWord_ite hf hw _)]

/-- Colons stay where they are. -/
theorem head_mapWords (hf : KeepsWords f) {c : Char} (hc : isIdentifierChar c = false)
    (text : List Char) : (mapWords f p text).head? = some c ↔ text.head? = some c := by
  cases text using words_induction with
  | nil => rw [mapWords_nil]
  | char d rest hd => rw [mapWords_char hd]; rfl
  | word w after hw ha =>
    have hhead : ∀ {v : List Char} (r : List Char), IsWord v → (v ++ r).head? ≠ some c := by
      intro v r hv h
      cases v with
      | nil => exact hv.ne_nil rfl
      | cons d u =>
        have hd := hv.chars d List.mem_cons_self
        rw [List.cons_append, List.head?_cons, Option.some.injEq] at h
        rw [h, hc] at hd
        cases hd
    rw [mapWords_word hw ha]
    exact iff_of_false (hhead _ (isWord_ite hf hw _)) (hhead _ hw)

theorem startsLikeKeyEnd_mapWords (hf : KeepsWords f) (text : List Char) :
    startsLikeKeyEnd (mapWords f p text) = startsLikeKeyEnd text := by
  induction text using words_induction generalizing p with
  | nil => rw [mapWords_nil]
  | char c rest hc ih =>
    rw [mapWords_char hc]
    by_cases hb : Text.isBlank c = true
    · rw [startsLikeKeyEnd_blank hb, startsLikeKeyEnd_blank hb, ih]
    · rw [Bool.not_eq_true] at hb
      have hhead := head_mapWords (p := p.step c) hf
        (not_isIdentifierChar_of_mem_breaks (show ':' ∈ breaks by decide)) rest
      rw [startsLikeKeyEnd_cons hb, startsLikeKeyEnd_cons hb, Bool.eq_iff_iff]
      simp [hhead]
  | word w after hw ha _ =>
    rw [mapWords_word hw ha, startsLikeKeyEnd_word hw, startsLikeKeyEnd_word (isWord_ite hf hw _)]

theorem mapWords_mapWords (hf : KeepsWords f) (text : List Char) :
    mapWords g p (mapWords f p text) = mapWords (fun w => g (f w)) p text := by
  induction text using words_induction generalizing p with
  | nil => simp
  | char c rest hc ih => rw [mapWords_char hc, mapWords_char hc, mapWords_char hc, ih]
  | word w after hw ha ih =>
    have ha' : wordMayEnd (mapWords f p.afterWord after) = true := by
      rw [wordMayEnd_mapWords hf, ha]
    have hu : p.uses (mapWords f p.afterWord after) = p.uses after := by
      rw [Place.uses, Place.uses, startsLikeKeyEnd_mapWords hf]
    rw [mapWords_word hw ha, mapWords_word hw ha]
    by_cases h : p.uses after = true
    · rw [if_pos h, if_pos h, mapWords_word (hf w hw) ha', hu, if_pos h, ih]
    · rw [if_neg h, if_neg h, mapWords_word hw ha', hu, if_neg h, ih]

end Compose

/-- The words of a text stay if no word is renamed. -/
theorem mapWords_id (p : Place) (text : List Char) : mapWords id p text = text := by
  induction text using words_induction generalizing p with
  | nil => exact mapWords_nil
  | char c rest hc ih => rw [mapWords_char hc, ih]
  | word w after hw ha ih => rw [mapWords_word hw ha, ih, id, ite_self]

/-- What becomes of a word when every one of some names is renamed. -/
def renameWord (scope : Scope) (names : List String) (w : List Char) : List Char :=
  if String.ofList w ∈ names then scope.localName w else w

namespace Scope

variable {scope : Scope}

theorem localName_of_prefix {w : List Char} (h : scope.stem <+: w) : scope.localName w = w := by
  rw [localName, if_pos (List.isPrefixOf_iff_prefix.mpr h)]

theorem stem_prefix_localName (w : List Char) : scope.stem <+: scope.localName w := by
  unfold localName
  split
  · rename_i h
    exact List.isPrefixOf_iff_prefix.mp h
  · exact List.prefix_append _ _

/-- A local name is its own local name. -/
theorem localName_localName (w : List Char) :
    scope.localName (scope.localName w) = scope.localName w :=
  localName_of_prefix (stem_prefix_localName w)

theorem isWord_localName (hc : ∀ c ∈ scope.className.toList, isIdentifierChar c = true)
    {w : List Char} (hw : IsWord w) : IsWord (scope.localName w) := by
  unfold localName
  split
  · exact hw
  · refine ⟨by simp [stem], ?_⟩
    intro c hm
    rcases List.mem_append.mp hm with hm | hm
    · rcases List.mem_cons.mp hm with rfl | hm
      · decide +kernel
      · exact hc c hm
    · exact hw.chars c hm

end Scope

theorem renameWord_of_prefix {scope : Scope} {w : List Char} (h : scope.stem <+: w)
    (names : List String) : renameWord scope names w = w := by
  rw [renameWord, Scope.localName_of_prefix h, ite_self]

/-- Renaming one name more. -/
theorem renameWord_cons (scope : Scope) (name : String) (names : List String) (w : List Char) :
    renameWord scope names (replaceWord name.toList (scope.localName name.toList) w) =
      renameWord scope (name :: names) w := by
  by_cases h : w = name.toList
  · rw [replaceWord, if_pos h, renameWord_of_prefix (Scope.stem_prefix_localName _), renameWord,
      if_pos, h]
    rw [h, String.ofList_toList]
    exact List.mem_cons_self
  · have hne : String.ofList w ≠ name := by
      rintro rfl
      exact h String.toList_ofList.symm
    rw [replaceWord, if_neg h, renameWord, renameWord]
    simp [hne]

/-- Renaming several words one after the other is renaming them all at once. -/
theorem renameAll_eq_mapWords {scope : Scope}
    (hc : ∀ c ∈ scope.className.toList, isIdentifierChar c = true) {names : List String}
    (hn : ∀ name ∈ names, IsWord name.toList) (text : List Char) :
    renameAll scope names text = mapWords (renameWord scope names) {} text := by
  induction names generalizing text with
  | nil =>
    have hid : renameWord scope [] = id := by
      funext w
      exact if_neg List.not_mem_nil
    rw [hid, mapWords_id]
    rfl
  | cons name names ih =>
    have hword := hn name List.mem_cons_self
    have hkeep : KeepsWords (replaceWord name.toList (scope.localName name.toList)) := by
      intro w hw
      unfold replaceWord
      split
      · exact Scope.isWord_localName hc hword
      · exact hw
    show renameAll scope names (rename name.toList (scope.localName name.toList) text) = _
    rw [ih (fun n hm => hn n (List.mem_cons_of_mem _ hm)), rename_eq_mapWords hword,
      mapWords_mapWords hkeep]
    congr 1
    funext w
    exact renameWord_cons scope name names w

end ElementWrappers.TypeExpr
