import Mathlib
import ElementWrappers.Proofs.TextLines
import ElementWrappers.Proofs.TypeSyntax

/-!
# Tokens

The tokens of a text are its words and its other characters that are not blank,
in order. How much white space stands between them does not count, so that
normalizing a type expression keeps its tokens: `tokens_normalize`.
-/

namespace ElementWrappers.TypeExpr

/-- The token of a word that is over; there is none before the first character. -/
def ended (word : List Char) : List (List Char) := if word.isEmpty then [] else [word]

/-- The token of a character that belongs to no word. -/
def single (c : Char) : List (List Char) := if Text.isBlank c then [] else [[c]]

/-- The tokens of `word`, which is not over yet, and of a text behind it. -/
def tokensFrom (word : List Char) : List Char → List (List Char)
  | [] => ended word
  | c :: rest =>
    if isIdentifierChar c then tokensFrom (word ++ [c]) rest
    else ended word ++ (single c ++ tokensFrom [] rest)

def tokens (text : List Char) : List (List Char) := tokensFrom [] text

section Laws

variable {word w x y after : List Char} {c : Char}

@[simp] theorem ended_nil : ended [] = [] := rfl

theorem ended_of_ne_nil (h : word ≠ []) : ended word = [word] := by
  rw [ended, List.isEmpty_eq_false_iff.mpr h]
  rfl

@[simp] theorem single_blank (h : Text.isBlank c = true) : single c = [] := if_pos h

@[simp] theorem tokens_nil : tokens [] = [] := rfl

theorem tokensFrom_part (h : isIdentifierChar c = true) (rest : List Char) :
    tokensFrom word (c :: rest) = tokensFrom (word ++ [c]) rest := if_pos h

theorem tokensFrom_other (h : isIdentifierChar c = false) (rest : List Char) :
    tokensFrom word (c :: rest) = ended word ++ (single c ++ tokens rest) := by
  rw [tokensFrom, h]
  rfl

theorem tokens_char (h : isIdentifierChar c = false) (rest : List Char) :
    tokens (c :: rest) = single c ++ tokens rest := by
  rw [tokens, tokensFrom_other h, ended_nil, List.nil_append]

/-- White space ends a word and is no token. -/
theorem tokensFrom_blank (h : Text.isBlank c = true) (rest : List Char) :
    tokensFrom word (c :: rest) = ended word ++ tokens rest := by
  rw [tokensFrom_other (isIdentifierChar_of_isBlank h), single_blank h, List.nil_append]

theorem tokensFrom_of_wordMayEnd (h : wordMayEnd after = true) :
    tokensFrom word after = ended word ++ tokens after := by
  cases after with
  | nil => exact (List.append_nil _).symm
  | cons c rest =>
    have hc := wordMayEnd_cons.mp h
    rw [tokensFrom_other hc, tokens_char hc]

/-- A text ends where no word goes on. -/
theorem tokensFrom_append (h : wordMayEnd y = true) :
    tokensFrom word (x ++ y) = tokensFrom word x ++ tokens y := by
  induction x generalizing word with
  | nil => exact tokensFrom_of_wordMayEnd h
  | cons c rest ih =>
    rw [List.cons_append]
    by_cases hc : isIdentifierChar c = true
    · rw [tokensFrom_part hc, tokensFrom_part hc, ih]
    · have hc := Bool.eq_false_of_not_eq_true hc
      rw [tokensFrom_other hc, tokensFrom_other hc, tokens, ih]
      simp only [List.append_assoc]
      rfl

theorem tokens_append (h : wordMayEnd y = true) : tokens (x ++ y) = tokens x ++ tokens y :=
  tokensFrom_append h

/-- A character that belongs to no word cuts a text in two. -/
theorem tokens_cut (h : isIdentifierChar c = false) :
    tokens (x ++ c :: y) = tokens x ++ (single c ++ tokens y) := by
  rw [tokens_append (wordMayEnd_cons.mpr h), tokens_char h]

theorem tokensFrom_chars (h : ∀ c ∈ w, isIdentifierChar c = true) (rest : List Char) :
    tokensFrom word (w ++ rest) = tokensFrom (word ++ w) rest := by
  induction w generalizing word with
  | nil => simp
  | cons c w ih =>
    rw [List.cons_append, tokensFrom_part (h c List.mem_cons_self),
      ih fun d hd => h d (List.mem_cons_of_mem _ hd), List.append_assoc]
    rfl

theorem tokens_word (hw : IsWord w) (ha : wordMayEnd after = true) :
    tokens (w ++ after) = w :: tokens after := by
  rw [tokens, tokensFrom_chars hw.chars, List.nil_append, tokensFrom_of_wordMayEnd ha,
    ended_of_ne_nil hw.ne_nil]
  rfl

theorem tokensFrom_eq_nil_iff :
    tokensFrom word x = [] ↔ word = [] ∧ ∀ c ∈ x, Text.isBlank c = true := by
  induction x generalizing word with
  | nil =>
    by_cases h : word = []
    · simp [h, tokensFrom]
    · simp [h, tokensFrom, ended_of_ne_nil h]
  | cons c rest ih =>
    by_cases hc : isIdentifierChar c = true
    · rw [tokensFrom_part hc, ih]
      simp [isBlank_of_isIdentifierChar hc]
    · rw [tokensFrom_other (Bool.eq_false_of_not_eq_true hc), tokens, List.append_eq_nil_iff,
        List.append_eq_nil_iff, ih]
      by_cases hb : Text.isBlank c = true
      · simp [ended, single, hb]
      · simp [ended, single, hb]

theorem tokens_eq_nil_iff : tokens x = [] ↔ ∀ c ∈ x, Text.isBlank c = true :=
  tokensFrom_eq_nil_iff.trans (and_iff_right rfl)

/-- The characters of the tokens are those of the text that are not blank. -/
theorem mem_flatten_tokensFrom :
    c ∈ (tokensFrom word x).flatten ↔ c ∈ word ∨ c ∈ x ∧ Text.isBlank c = false := by
  have hended : ∀ w : List Char, (ended w).flatten = w := by
    intro w
    by_cases h : w = []
    · rw [h]
      rfl
    · rw [ended_of_ne_nil h, List.flatten_singleton]
  induction x generalizing word with
  | nil => simp [tokensFrom, hended]
  | cons d rest ih =>
    by_cases hd : isIdentifierChar d = true
    · have hb := isBlank_of_isIdentifierChar hd
      rw [tokensFrom_part hd]
      refine ih.trans ?_
      rw [List.mem_append, List.mem_singleton, List.mem_cons]
      constructor
      · rintro ((h | rfl) | ⟨h, hc⟩)
        · exact .inl h
        · exact .inr ⟨.inl rfl, hb⟩
        · exact .inr ⟨.inr h, hc⟩
      · rintro (h | ⟨rfl | h, hc⟩)
        · exact .inl (.inl h)
        · exact .inl (.inr rfl)
        · exact .inr ⟨h, hc⟩
    · have hsingle : c ∈ (single d).flatten ↔ c = d ∧ Text.isBlank c = false := by
        by_cases hb : Text.isBlank d = true
        · rw [single_blank hb]
          exact iff_of_false List.not_mem_nil fun h => by rw [h.1, hb] at h; exact absurd h.2 (by decide)
        · rw [single, if_neg hb, List.flatten_singleton, List.mem_singleton]
          exact ⟨fun h => ⟨h, by rw [h]; exact Bool.eq_false_of_not_eq_true hb⟩, And.left⟩
      have hrest : c ∈ (tokens rest).flatten ↔ c ∈ rest ∧ Text.isBlank c = false :=
        ih.trans (or_iff_right List.not_mem_nil)
      rw [tokensFrom_other (Bool.eq_false_of_not_eq_true hd), List.flatten_append,
        List.flatten_append, hended, List.mem_append, List.mem_append, hsingle, hrest,
        List.mem_cons]
      tauto

end Laws

/-! ## White space -/

section Blanks

variable {word x b : List Char} {c : Char}

theorem tokens_blanks (h : ∀ c ∈ b, Text.isBlank c = true) (rest : List Char) :
    tokens (b ++ rest) = tokens rest := by
  induction b with
  | nil => rfl
  | cons c b ih =>
    rw [List.cons_append, tokens, tokensFrom_blank (h c List.mem_cons_self),
      ih fun d hd => h d (List.mem_cons_of_mem _ hd), ended_nil, List.nil_append]

theorem wordMayEnd_blanks (h : ∀ c ∈ b, Text.isBlank c = true) : wordMayEnd b = true := by
  cases b with
  | nil => rfl
  | cons c b => exact wordMayEnd_cons.mpr (isIdentifierChar_of_isBlank (h c List.mem_cons_self))

theorem tokens_dropWhile_isBlank (x : List Char) : tokens (x.dropWhile Text.isBlank) = tokens x := by
  conv_rhs => rw [← List.takeWhile_append_dropWhile (p := Text.isBlank) (l := x)]
  exact (tokens_blanks (fun c hc => List.mem_takeWhile_imp hc) _).symm

theorem tokens_trim (x : List Char) : tokens (Text.trim x) = tokens x := by
  obtain ⟨b, hb, he⟩ := Text.exists_trimEnd_append (Text.trimStart x)
  have ht : tokens b = [] := by simpa using tokens_blanks hb []
  calc tokens (Text.trim x) = tokens (Text.trim x) ++ tokens b := by rw [ht, List.append_nil]
    _ = tokens (Text.trim x ++ b) := (tokens_append (wordMayEnd_blanks hb)).symm
    _ = tokens (Text.trimStart x) := by rw [Text.trim, ← he]
    _ = tokens x := tokens_dropWhile_isBlank x

/-! ## Normalizing -/

theorem tokensFrom_joinLines (x : List Char) : tokensFrom word (joinLines x) = tokensFrom word x := by
  induction x using joinLines.induct generalizing word with
  | case1 rest ih =>
    rw [joinLines, tokensFrom_blank (by decide), tokensFrom_blank (by decide), tokens, tokens, ih,
      tokensFrom_blank (by decide)]
    rfl
  | case2 rest ih =>
    rw [joinLines, tokensFrom_blank (by decide), tokensFrom_blank (by decide), tokens, tokens, ih]
  | case3 c rest h1 h2 ih =>
    rw [joinLines]
    · by_cases hc : isIdentifierChar c = true
      · rw [tokensFrom_part hc, tokensFrom_part hc, ih]
      · have hc := Bool.eq_false_of_not_eq_true hc
        rw [tokensFrom_other hc, tokensFrom_other hc, tokens, tokens, ih]
    · exact h1
    · exact h2
  | case4 => rfl

theorem tokensFrom_collapse (x : List Char) : tokensFrom word (collapse x) = tokensFrom word x := by
  induction x using collapse.induct generalizing word with
  | case1 => rw [collapse_nil]
  | case2 c => rw [collapse_singleton]
  | case3 c d rest hb hl ih =>
    rw [collapse_run hb]
    rw [Bool.and_eq_true] at hb
    rw [tokensFrom_blank (by decide), tokensFrom_blank hb.1, tokens, ih, tokens,
      tokensFrom_blank hb.2, ended_nil, List.nil_append]
    exact congrArg _ (tokens_dropWhile_isBlank rest)
  | case4 c d rest hb ih =>
    rw [collapse_pair hb]
    by_cases hc : isIdentifierChar c = true
    · rw [tokensFrom_part hc, tokensFrom_part hc, ih]
    · have hc := Bool.eq_false_of_not_eq_true hc
      rw [tokensFrom_other hc, tokensFrom_other hc, tokens, ih]
      rfl

theorem tokensFrom_spaceCommas (x : List Char) :
    tokensFrom word (spaceCommas x) = tokensFrom word x := by
  have hcomma : isIdentifierChar ',' = false := not_isIdentifierChar_of_mem_breaks (by decide)
  induction x using spaceCommas.induct generalizing word with
  | case1 => rw [spaceCommas]
  | case2 rest hl ih =>
    rw [spaceCommas, if_pos rfl, tokensFrom_other hcomma, tokensFrom_other hcomma, tokens,
      tokensFrom_blank (by decide), tokens, ih, ended_nil, List.nil_append]
    exact congrArg _ (congrArg _ (tokens_dropWhile_isBlank rest))
  | case3 c rest hne ih =>
    rw [spaceCommas, if_neg hne]
    by_cases hc : isIdentifierChar c = true
    · rw [tokensFrom_part hc, tokensFrom_part hc, ih]
    · have hc := Bool.eq_false_of_not_eq_true hc
      rw [tokensFrom_other hc, tokensFrom_other hc, tokens, ih]
      rfl

/-- Normalizing keeps the tokens. -/
theorem tokens_normalize (x : List Char) : tokens (normalize x) = tokens x := by
  rw [normalize, tokens_trim, tokens, tokensFrom_spaceCommas, tokensFrom_collapse,
    tokensFrom_joinLines]
  rfl

end Blanks

/-! ## Plain texts -/

/-- Names and words of the text go on through the same characters. -/
def IsPlain (text : List Char) : Prop := ∀ c ∈ text, isNamePart c = isIdentifierChar c

theorem isPlain_of_isAscii {text : List Char} (h : ∀ c ∈ text, c.toNat < 128) : IsPlain text := by
  have hall : ∀ n < 128, isNamePart (Char.ofNat n) = isIdentifierChar (Char.ofNat n) := by
    decide +kernel
  intro c hc
  have := hall c.toNat (h c hc)
  rwa [Char.ofNat_toNat] at this

theorem isNamePart_of_isBlank {c : Char} (h : Text.isBlank c = true) : isNamePart c = false := by
  have hall : ∀ n ∈ blanks, isNamePart (Char.ofNat n) = false := by decide +kernel
  have := hall c.toNat (mem_blanks h)
  rwa [Char.ofNat_toNat] at this

namespace IsPlain

variable {x y w : List Char}

theorem mono (h : IsPlain x) (hs : y ⊆ x) : IsPlain y := fun c hc => h c (hs hc)

/-- White space is plain, so only the tokens matter. -/
theorem of_tokens (h : IsPlain x) (ht : tokens y = tokens x) : IsPlain y := by
  intro c hc
  by_cases hb : Text.isBlank c = true
  · rw [isNamePart_of_isBlank hb, isIdentifierChar_of_isBlank hb]
  · have hb := Bool.eq_false_of_not_eq_true hb
    have hy : c ∈ (tokens y).flatten := mem_flatten_tokensFrom.mpr (.inr ⟨hc, hb⟩)
    rw [ht] at hy
    rcases mem_flatten_tokensFrom.mp hy with hx | ⟨hx, -⟩
    · cases hx
    · exact h c hx

theorem isWord_of_isName (h : IsPlain w) (hn : isName w = true) : IsWord w := by
  cases w with
  | nil => cases hn
  | cons c rest =>
    simp only [isName, Bool.and_eq_true, List.all_eq_true] at hn
    refine ⟨List.cons_ne_nil _ _, fun d hd => ?_⟩
    rcases List.mem_cons.mp hd with rfl | hr
    · have hpart : isAsciiPart d = true := by rw [isAsciiPart, hn.1, Bool.true_or]
      exact (of_isAsciiPart hpart).1
    · rw [← h d hd]
      exact hn.2 d hr

end IsPlain

end ElementWrappers.TypeExpr
