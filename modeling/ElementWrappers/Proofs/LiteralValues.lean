import Mathlib
import ElementWrappers.Json.Reader
import ElementWrappers.Naming
import ElementWrappers.Proofs.TextLines

/-!
# Values of literals

A single-quoted literal of a generated source has a value, which is a sequence of
UTF-16 code units. A character stands for its own units, and an escape for fewer than
it is written with. So a text between quotes has itself for its value only if nothing in
it needs an escape: `readBody_iff`, and `readList_quotedList_iff` for a list of names.
-/

namespace ElementWrappers.Literal

/-! ## Code units -/

/-- The code units of a code point. -/
def pointUnits (n : Nat) : List Nat :=
  if n < 0x10000 then [n] else [0xD800 + (n - 0x10000) / 0x400, 0xDC00 + (n - 0x10000) % 0x400]

/-- The code units of a text. -/
def units (x : List Char) : List Nat := x.flatMap fun c => pointUnits c.toNat

section Units

variable {x y : List Char} {c : Char}

theorem units_cons (c : Char) (x : List Char) : units (c :: x) = pointUnits c.toNat ++ units x :=
  List.flatMap_cons

theorem units_append (x y : List Char) : units (x ++ y) = units x ++ units y :=
  List.flatMap_append

theorem length_pointUnits (n : Nat) :
    0 < (pointUnits n).length ∧ (pointUnits n).length ≤ 2 := by
  unfold pointUnits
  split <;> simp

theorem length_le_units (x : List Char) : x.length ≤ (units x).length := by
  induction x with
  | nil => exact Nat.le_refl _
  | cons c x ih =>
    have hc := (length_pointUnits c.toNat).1
    rw [units_cons, List.length_append, List.length_cons]
    omega

/-- No character but the quote has the unit of a quote. -/
theorem quote_mem_of_units (h : 39 ∈ units x) : '\'' ∈ x := by
  obtain ⟨c, hc, hm⟩ := List.mem_flatMap.mp h
  have hn : c.toNat = 39 := by
    unfold pointUnits at hm
    split at hm
    · exact (List.mem_singleton.mp hm).symm
    · simp only [List.mem_cons, List.not_mem_nil, or_false] at hm
      omega
  have hquote : c = '\'' := Char.toNat_inj.mp hn
  exact hquote ▸ hc

end Units

/-! ## Escapes -/

/-- The code point of a hexadecimal numeral. -/
def hexValue? : Nat → List Char → Option Nat
  | n, [] => some n
  | n, c :: rest => (Json.hexDigit? c).bind fun digit => hexValue? (n * 16 + digit) rest

/-- The escapes of control characters. -/
def controlEscapes : List (Char × Nat) :=
  [('b', 8), ('t', 9), ('n', 10), ('v', 11), ('f', 12), ('r', 13)]

/-- What a character stands for behind a backslash: an escaped line break for nothing,
most characters for themselves. -/
def charEscape? (c : Char) : Option (List Nat) :=
  if c = '\n' ∨ c = '\r' ∨ c = '\u2028' ∨ c = '\u2029' then some []
  else if c = 'x' ∨ c = 'u' ∨ c.isDigit = true then none
  else
    match controlEscapes.lookup c with
    | some n => some [n]
    | none => some (pointUnits c.toNat)

/-- An escape by a number of hexadecimal digits. -/
def readHex (count : Nat) (x : List Char) : Option (List Nat × List Char) :=
  if x.length < count then none
  else (hexValue? 0 (x.take count)).map fun n => ([n], x.drop count)

/-- An escape by a code point in braces, behind the first one. -/
def readPoint (x : List Char) : Option (List Nat × List Char) :=
  match x.dropWhile (· != '\x7d') with
  | [] => none
  | _ :: rest =>
    match x.takeWhile (· != '\x7d') with
    | [] => none
    | c :: digits =>
      (hexValue? 0 (c :: digits)).bind fun n =>
        if n ≤ 0x10FFFF then some (pointUnits n, rest) else none

/-- What an escape stands for, and what comes behind it. -/
def readEscape : List Char → Option (List Nat × List Char)
  | [] => none
  | '\r' :: '\n' :: rest => some ([], rest)
  | 'x' :: rest => readHex 2 rest
  | 'u' :: '\x7b' :: rest => readPoint rest
  | 'u' :: rest => readHex 4 rest
  | '0' :: rest => if rest.head?.any Char.isDigit then none else some ([0], rest)
  | c :: rest => (charEscape? c).map fun value => (value, rest)

theorem quote_not_mem_of_hexValue? {n m : Nat} {x : List Char} (h : hexValue? n x = some m) :
    '\'' ∉ x := by
  have hquote : Json.hexDigit? '\'' = none := by decide
  induction x generalizing n with
  | nil => exact List.not_mem_nil
  | cons c rest ih =>
    rw [hexValue?, Option.bind_eq_some_iff] at h
    obtain ⟨digit, hd, hrest⟩ := h
    refine List.not_mem_cons_of_ne_of_not_mem ?_ (ih hrest)
    rintro rfl
    rw [hquote] at hd
    cases hd

/-- What an escape that is written as `e` may stand for: it is no longer than it is
written, and has a quote only as an escaped quote. -/
structure Escapes (e : List Char) (value : List Nat) : Prop where
  ne_nil : e ≠ []
  length_le : value.length ≤ (units e).length
  quote : '\'' ∈ e → e = ['\''] ∧ value = [39]

section Escapes

variable {x rest : List Char} {value : List Nat}

theorem Escapes.of_not_mem {c : Char} {e : List Char} (hc : c ≠ '\'') (he : '\'' ∉ e)
    (hl : value.length ≤ e.length + 1) : Escapes (c :: e) value where
  ne_nil := List.cons_ne_nil _ _
  length_le := Nat.le_trans hl (length_le_units (c :: e))
  quote hq := absurd hq (List.not_mem_cons_of_ne_of_not_mem hc.symm he)

theorem exists_of_readHex {count : Nat} (h : readHex count x = some (value, rest)) :
    ∃ digits, x = digits ++ rest ∧ '\'' ∉ digits ∧ value.length = 1 := by
  unfold readHex at h
  split at h
  · cases h
  · obtain ⟨n, hn, he⟩ := Option.map_eq_some_iff.mp h
    obtain ⟨rfl, rfl⟩ := Prod.mk.inj he
    exact ⟨x.take count, (List.take_append_drop count x).symm, quote_not_mem_of_hexValue? hn, rfl⟩

theorem exists_of_readPoint (h : readPoint x = some (value, rest)) :
    ∃ digits, x = digits ++ rest ∧ '\'' ∉ digits ∧ value.length ≤ 2 := by
  unfold readPoint at h
  split at h
  · cases h
  · rename_i last after hd
    have hlast : last ≠ '\'' := by
      have hhead := List.head?_dropWhile_not (· != '\x7d') x
      rw [hd] at hhead
      rintro rfl
      simp at hhead
    split at h
    · cases h
    · rename_i c digits ht
      obtain ⟨n, hn, he⟩ := Option.bind_eq_some_iff.mp h
      split at he
      · obtain ⟨rfl, rfl⟩ := Prod.mk.inj (Option.some.inj he)
        have hx : x = (c :: digits ++ [last]) ++ after := by
          rw [List.append_assoc, List.singleton_append, ← ht, ← hd, List.takeWhile_append_dropWhile]
        refine ⟨_, hx, List.not_mem_append (quote_not_mem_of_hexValue? hn) ?_,
          (length_pointUnits n).2⟩
        exact fun hq => hlast (List.mem_singleton.mp hq).symm
      · cases he

theorem escapes_of_charEscape? {c : Char} (h : charEscape? c = some value) :
    Escapes [c] value := by
  have hunits : units [c] = pointUnits c.toNat := List.append_nil _
  by_cases hc : c = '\''
  · subst hc
    have hvalue : charEscape? '\'' = some [39] := by decide
    obtain rfl := Option.some.inj (h.symm.trans hvalue)
    exact ⟨List.cons_ne_nil _ _, by decide, fun _ => ⟨rfl, rfl⟩⟩
  · refine ⟨List.cons_ne_nil _ _, ?_, fun hq => absurd (List.mem_singleton.mp hq).symm hc⟩
    unfold charEscape? at h
    split at h
    · obtain rfl := Option.some.inj h
      exact Nat.zero_le _
    · split at h
      · cases h
      · rw [hunits]
        split at h
        · obtain rfl := Option.some.inj h
          exact (length_pointUnits c.toNat).1
        · obtain rfl := Option.some.inj h
          exact Nat.le_refl _

/-- What is read as an escape is written before the rest. -/
theorem exists_of_readEscape (h : readEscape x = some (value, rest)) :
    ∃ e, x = e ++ rest ∧ Escapes e value := by
  unfold readEscape at h
  split at h
  · cases h
  · obtain ⟨rfl, rfl⟩ := Prod.mk.inj (Option.some.inj h)
    exact ⟨['\r', '\n'], rfl, .of_not_mem (by decide) (by decide) (Nat.zero_le _)⟩
  · obtain ⟨digits, rfl, hq, hl⟩ := exists_of_readHex h
    exact ⟨'x' :: digits, rfl, .of_not_mem (by decide) hq (by omega)⟩
  · obtain ⟨digits, rfl, hq, hl⟩ := exists_of_readPoint h
    exact ⟨'u' :: '\x7b' :: digits, rfl, .of_not_mem (by decide)
      (List.not_mem_cons_of_ne_of_not_mem (by decide) hq) (by simp only [List.length_cons]; omega)⟩
  · obtain ⟨digits, rfl, hq, hl⟩ := exists_of_readHex h
    exact ⟨'u' :: digits, rfl, .of_not_mem (by decide) hq (by omega)⟩
  · split at h
    · cases h
    · obtain ⟨rfl, rfl⟩ := Prod.mk.inj (Option.some.inj h)
      exact ⟨['0'], rfl, .of_not_mem (by decide) List.not_mem_nil (by decide)⟩
  · rename_i c rest' _ _ _ _ _
    obtain ⟨value', hv, he⟩ := Option.map_eq_some_iff.mp h
    obtain ⟨rfl, rfl⟩ := Prod.mk.inj he
    exact ⟨[c], rfl, escapes_of_charEscape? hv⟩

theorem length_of_readEscape (h : readEscape x = some (value, rest)) :
    rest.length < x.length := by
  obtain ⟨e, rfl, he⟩ := exists_of_readEscape h
  have := List.length_pos_iff.mpr he.ne_nil
  rw [List.length_append]
  omega

end Escapes

/-! ## Literals -/

/-- The value of a literal behind its opening quote, and what comes behind its closing
one. A line does not end inside a literal unless its break is escaped. -/
def readBody : List Char → Option (List Nat × List Char)
  | [] => none
  | c :: rest =>
    if c = '\'' then some ([], rest)
    else if c = '\n' ∨ c = '\r' then none
    else if c = '\\' then
      match h : readEscape rest with
      | none => none
      | some (value, after) =>
        have := length_of_readEscape h
        (readBody after).map fun more => (value ++ more.1, more.2)
    else (readBody rest).map fun more => (pointUnits c.toNat ++ more.1, more.2)
termination_by x => x.length

/-- A single-quoted literal. -/
def read : List Char → Option (List Nat × List Char)
  | '\'' :: rest => readBody rest
  | _ => none

/-- Whether a character cannot stand in a single-quoted literal as it is. -/
def needsEscape (c : Char) : Bool := c == '\'' || c == '\\' || c == '\n' || c == '\r'

/-- A text whose characters all stand for themselves in a literal. -/
def IsQuotable (x : List Char) : Prop := ∀ c ∈ x, needsEscape c = false

section Body

variable {x p n t rest after : List Char} {value : List Nat} {c : Char}

theorem isQuotable_cons : IsQuotable (c :: x) ↔ needsEscape c = false ∧ IsQuotable x :=
  List.forall_mem_cons

theorem isQuotable_append {y : List Char} :
    IsQuotable (x ++ y) ↔ IsQuotable x ∧ IsQuotable y := List.forall_mem_append

theorem needsEscape_eq_false_iff :
    needsEscape c = false ↔ c ≠ '\'' ∧ c ≠ '\\' ∧ ¬ (c = '\n' ∨ c = '\r') := by
  simp [needsEscape, and_assoc]

theorem IsQuotable.quote_not_mem (h : IsQuotable x) : '\'' ∉ x :=
  fun hm => (needsEscape_eq_false_iff.mp (h _ hm)).1 rfl

theorem readBody_quote (x : List Char) : readBody ('\'' :: x) = some ([], x) := by
  rw [readBody, if_pos rfl]

theorem readBody_char (h : needsEscape c = false) (x : List Char) : readBody (c :: x) =
    (readBody x).map fun more => (pointUnits c.toNat ++ more.1, more.2) := by
  obtain ⟨hq, hb, hn⟩ := needsEscape_eq_false_iff.mp h
  rw [readBody, if_neg hq, if_neg hn, if_neg hb]

/-- Every literal goes on with an escape or with a character that stands for itself. -/
theorem of_readBody_cons (hc : c ≠ '\'') (h : readBody (c :: x) = some (value, rest)) :
    (c = '\\' ∧ ∃ first after more, readEscape x = some (first, after) ∧
      readBody after = some (more, rest) ∧ value = first ++ more) ∨
    (needsEscape c = false ∧ ∃ more, readBody x = some (more, rest) ∧
      value = pointUnits c.toNat ++ more) := by
  rw [readBody, if_neg hc] at h
  split at h
  · cases h
  · rename_i hn
    split at h
    · rename_i hb
      split at h
      · cases h
      · rename_i first after he
        obtain ⟨more, hm, hv⟩ := Option.map_eq_some_iff.mp h
        obtain ⟨rfl, rfl⟩ := Prod.mk.inj hv
        exact .inl ⟨hb, first, after, more.1, he, hm, rfl⟩
    · rename_i hb
      obtain ⟨more, hm, hv⟩ := Option.map_eq_some_iff.mp h
      obtain ⟨rfl, rfl⟩ := Prod.mk.inj hv
      exact .inr ⟨needsEscape_eq_false_iff.mpr ⟨hc, hb, hn⟩, more.1, hm, rfl⟩

/-- A text without escapes is its own value. -/
theorem readBody_of_isQuotable (h : IsQuotable n) (t : List Char) :
    readBody (n ++ '\'' :: t) = some (units n, t) := by
  induction n with
  | nil => exact readBody_quote t
  | cons c n ih =>
    obtain ⟨hc, hn⟩ := isQuotable_cons.mp h
    rw [List.cons_append, readBody_char hc, ih hn]
    rfl

/-- A text that begins another has its next character, or ends before it. -/
theorem mem_or_exists_append {e : List Char} (h : p ++ c :: t = e ++ after) :
    c ∈ e ∨ ∃ s, p = e ++ s ∧ after = s ++ c :: t := by
  rcases List.append_eq_append_iff.mp h with ⟨s, rfl, hs⟩ | ⟨s, rfl, rfl⟩
  · cases s with
    | nil => exact .inr ⟨[], by simp, hs.symm⟩
    | cons d s =>
      obtain ⟨rfl, -⟩ := List.cons.inj hs
      exact .inl (List.mem_append_right _ List.mem_cons_self)
  · exact .inr ⟨s, rfl, rfl⟩

/-- What a literal is read as that has its first quote behind `p`. It ends there, and has as
many units as `p` only if `p` needs no escape; or that quote is escaped, and stands in the
value before as many units. -/
def Reaches (p t : List Char) (value : List Nat) (rest : List Char) : Prop :=
  (rest = t ∧ value.length ≤ (units p).length ∧
    (value.length = (units p).length → IsQuotable p)) ∨
  ∃ v w, value = v ++ 39 :: w ∧ v.length < (units p).length

theorem Reaches.append (h : Reaches p t value rest) {e : List Char} {first : List Nat}
    (hle : first.length ≤ (units e).length)
    (heq : first.length = (units e).length → IsQuotable e) :
    Reaches (e ++ p) t (first ++ value) rest := by
  unfold Reaches
  rw [units_append, List.length_append, List.length_append, isQuotable_append]
  obtain ⟨hrest, hvalue, hsame⟩ | ⟨v, w, rfl, hv⟩ := h
  · exact .inl ⟨hrest, by omega, fun hs => ⟨heq (by omega), hsame (by omega)⟩⟩
  · refine .inr ⟨first ++ v, w, (List.append_assoc _ _ _).symm, ?_⟩
    rw [List.length_append]
    omega

theorem reaches_of_readBody (hp : '\'' ∉ p)
    (h : readBody (p ++ '\'' :: t) = some (value, rest)) : Reaches p t value rest := by
  induction hl : p.length using Nat.strong_induction_on generalizing p value with
  | _ k ih =>
    cases p with
    | nil =>
      rw [List.nil_append, readBody_quote] at h
      obtain ⟨rfl, rfl⟩ := Prod.mk.inj (Option.some.inj h)
      exact .inl ⟨rfl, Nat.le_refl _, fun _ => List.forall_mem_nil _⟩
    | cons c p =>
      obtain ⟨hc, hmem⟩ := List.ne_and_not_mem_of_not_mem_cons hp
      rw [List.length_cons] at hl
      obtain ⟨rfl, first, after, more, he, hm, rfl⟩ | ⟨hplain, more, hm, rfl⟩ :=
        of_readBody_cons hc.symm h
      · obtain ⟨e, hx, hescape⟩ := exists_of_readEscape he
        have hlength : (units ('\\' :: e)).length = 1 + (units e).length := by
          rw [units_cons, List.length_append]
          rfl
        -- the quote itself is escaped, or the escape ends before it
        rcases mem_or_exists_append hx with hq | ⟨s, rfl, rfl⟩
        · obtain ⟨-, rfl⟩ := hescape.quote hq
          have hpos : 0 < (units ('\\' :: p)).length :=
            Nat.lt_of_lt_of_le (Nat.succ_pos p.length) (length_le_units ('\\' :: p))
          exact .inr ⟨[], more, rfl, hpos⟩
        · have hs : '\'' ∉ s := fun hq => hmem (List.mem_append_right _ hq)
          have hle := hescape.length_le
          rw [List.length_append] at hl
          exact (ih s.length (by omega) hs hm rfl).append (e := '\\' :: e) (by omega)
            fun heq => by omega
      · have hone : IsQuotable [c] := isQuotable_cons.mpr ⟨hplain, List.forall_mem_nil _⟩
        have hunits : units [c] = pointUnits c.toNat := List.append_nil _
        have hreaches := ih p.length (by omega) hmem hm rfl
        exact hreaches.append (by rw [hunits]) fun _ => hone

/-- What is written before the first quote is all of the text that is the value, and
needs no escape. -/
theorem eq_of_readBody (hp : '\'' ∉ p) (hn : p <+: n)
    (h : readBody (p ++ '\'' :: t) = some (units n, rest)) :
    p = n ∧ IsQuotable n ∧ rest = t := by
  obtain ⟨q, rfl⟩ := hn
  rw [units_append] at h
  obtain ⟨hrest, hle, heq⟩ | ⟨v, w, hvalue, hv⟩ := reaches_of_readBody hp h
  · have hq := length_le_units q
    rw [List.length_append] at hle heq
    obtain rfl : q = [] := List.length_eq_zero_iff.mp (by omega)
    rw [List.append_nil]
    exact ⟨rfl, heq rfl, hrest⟩
  · -- the quote of the value is among the units of `p`
    have hquote : 39 ∈ units p := by
      have hprefix : v ++ [39] <+: units p ++ units q := ⟨w, by rw [hvalue]; simp⟩
      have hle : (v ++ [39]).length ≤ (units p).length := by
        rw [List.length_append, List.length_singleton]
        omega
      have hin := List.prefix_of_prefix_length_le hprefix (List.prefix_append _ _) hle
      exact hin.subset (List.mem_append_right _ (List.mem_singleton_self _))
    exact absurd (quote_mem_of_units hquote) hp

/-- The first quote of a text with a quote behind it. -/
theorem exists_first_quote (n t : List Char) : ∃ p t', '\'' ∉ p ∧ p <+: n ∧
    n ++ '\'' :: t = p ++ '\'' :: t' := by
  induction n with
  | nil => exact ⟨[], t, List.not_mem_nil, List.prefix_refl _, rfl⟩
  | cons c n ih =>
    by_cases hc : c = '\''
    · exact ⟨[], n ++ '\'' :: t, List.not_mem_nil, List.nil_prefix, by rw [hc]; rfl⟩
    · obtain ⟨p, t', hp, hn, he⟩ := ih
      refine ⟨c :: p, t', List.not_mem_cons_of_ne_of_not_mem (Ne.symm hc) hp,
        List.cons_prefix_cons.mpr ⟨rfl, hn⟩, ?_⟩
      rw [List.cons_append, he, List.cons_append]

/-- A text is its own value exactly if nothing in it needs an escape, and then the literal
ends at its end. -/
theorem readBody_iff : readBody (n ++ '\'' :: t) = some (units n, rest) ↔
    IsQuotable n ∧ rest = t := by
  constructor
  · intro h
    obtain ⟨p, t', hp, hn, he⟩ := exists_first_quote n t
    rw [he] at h
    obtain ⟨rfl, hquotable, rfl⟩ := eq_of_readBody hp hn h
    exact ⟨hquotable, (List.cons.inj (List.append_cancel_left he)).2.symm⟩
  · rintro ⟨h, rfl⟩
    exact readBody_of_isQuotable h rest

theorem length_of_readBody (h : readBody x = some (value, rest)) : rest.length < x.length := by
  induction hl : x.length using Nat.strong_induction_on generalizing x value with
  | _ k ih =>
    cases x with
    | nil =>
      rw [readBody] at h
      cases h
    | cons c x =>
      rw [List.length_cons] at hl
      by_cases hc : c = '\''
      · rw [hc, readBody_quote] at h
        obtain ⟨-, rfl⟩ := Prod.mk.inj (Option.some.inj h)
        omega
      · obtain ⟨-, first, after, more, he, hm, -⟩ | ⟨-, more, hm, -⟩ := of_readBody_cons hc h
        · have hafter := length_of_readEscape he
          have hrest := ih after.length (by omega) hm rfl
          omega
        · have hrest := ih x.length (by omega) hm rfl
          omega

theorem length_of_read (h : read x = some (value, rest)) : rest.length < x.length := by
  cases x with
  | nil => cases h
  | cons c x =>
    by_cases hc : c = '\''
    · subst hc
      have hbody : readBody x = some (value, rest) := h
      have := length_of_readBody hbody
      rw [List.length_cons]
      omega
    · unfold read at h
      split at h
      · exact absurd (List.cons.inj ‹_›).1 hc
      · cases h

end Body

/-! ## Quoted names -/

section Quoted

variable {name : String} {rest : List Char}

theorem read_quoted (name : String) (t : List Char) :
    read ((Naming.quoted name).toList ++ t) = readBody (name.toList ++ '\'' :: t) := by
  have hquoted : (Naming.quoted name).toList ++ t = '\'' :: (name.toList ++ '\'' :: t) := by
    simp [Naming.quoted]
  rw [hquoted]
  rfl

/-- A quoted name is a literal for the name exactly if nothing in it needs an escape. -/
theorem read_quoted_iff (t : List Char) :
    read ((Naming.quoted name).toList ++ t) = some (units name.toList, rest) ↔
      IsQuotable name.toList ∧ rest = t := by
  rw [read_quoted, readBody_iff]

end Quoted

/-! ## Lists of literals -/

/-- The values of literals with commas between them. -/
def readItems (x : List Char) : Option (List (List Nat)) :=
  match h : read x with
  | none => none
  | some (value, []) => some [value]
  | some (value, c :: rest) =>
    have := length_of_read h
    have := Text.length_trimStart_le rest
    if c = ',' then (readItems (Text.trimStart rest)).map (value :: ·) else none
termination_by x.length
decreasing_by simp only [List.length_cons] at *; omega

/-- The values of a list of literals, which may be empty. -/
def readList (text : String) : Option (List (List Nat)) :=
  if Text.trim text.toList = [] then some [] else readItems text.toList

section Items

variable {x : List Char} {value : List Nat} {values : List (List Nat)} {names : List String}

theorem readItems_cons_iff : readItems x = some (value :: values) ↔
    ∃ rest, read x = some (value, rest) ∧ ((rest = [] ∧ values = []) ∨
      ∃ more, rest = ',' :: more ∧ readItems (Text.trimStart more) = some values) := by
  rw [readItems]
  split
  · rename_i hr
    simp [hr]
  · rename_i first hr
    simp [hr, eq_comm]
  · rename_i first c rest hr
    by_cases hc : c = ','
    · simp [hr, hc, and_comm]
    · simp [hr, hc]

theorem toList_quotedList (name next : String) (rest : List String) :
    (Naming.quotedList (name :: next :: rest)).toList =
      (Naming.quoted name).toList ++ ',' :: ' ' :: (Naming.quotedList (next :: rest)).toList := by
  simp [Naming.quotedList]

theorem exists_quotedList (name : String) (rest : List String) :
    ∃ t, (Naming.quotedList (name :: rest)).toList = '\'' :: t := by
  cases rest with
  | nil => exact ⟨name.toList ++ ['\''], by simp [Naming.quotedList, Naming.quoted]⟩
  | cons next rest =>
    rw [toList_quotedList]
    exact ⟨_, by simp [Naming.quoted]; rfl⟩

theorem readItems_quotedList_iff (name : String) (rest : List String) :
    readItems (Naming.quotedList (name :: rest)).toList =
        some ((name :: rest).map fun n => units n.toList) ↔
      ∀ n ∈ name :: rest, IsQuotable n.toList := by
  induction rest generalizing name with
  | nil =>
    have hsingle : (Naming.quotedList [name]).toList = (Naming.quoted name).toList ++ [] := by
      simp [Naming.quotedList]
    rw [List.map_singleton, readItems_cons_iff, hsingle, List.forall_mem_singleton]
    simp only [read_quoted_iff]
    exact ⟨fun ⟨_, ⟨hname, _⟩, _⟩ => hname,
      fun hname => ⟨[], ⟨hname, rfl⟩, .inl ⟨rfl, trivial⟩⟩⟩
  | cons next rest ih =>
    obtain ⟨t, ht⟩ := exists_quotedList next rest
    -- the gap behind a comma is trimmed up to the next quote
    have htrim : Text.trimStart (' ' :: (Naming.quotedList (next :: rest)).toList) =
        (Naming.quotedList (next :: rest)).toList := by
      rw [ht]
      rfl
    rw [List.map_cons, readItems_cons_iff, toList_quotedList, List.forall_mem_cons, ← ih next]
    simp only [read_quoted_iff]
    constructor
    · rintro ⟨_, ⟨hname, rfl⟩, ⟨hnil, -⟩ | ⟨more, hmore, hitems⟩⟩
      · cases hnil
      · obtain ⟨-, rfl⟩ := List.cons.inj hmore
        exact ⟨hname, htrim ▸ hitems⟩
    · rintro ⟨hname, hitems⟩
      exact ⟨_, ⟨hname, rfl⟩, .inr ⟨_, rfl, htrim.symm ▸ hitems⟩⟩

/-- A list of quoted names is a list of literals for the names exactly if nothing in them
needs an escape. -/
theorem readList_quotedList_iff : readList (Naming.quotedList names) =
    some (names.map fun n => units n.toList) ↔ ∀ n ∈ names, IsQuotable n.toList := by
  cases names with
  | nil => simp [readList, Naming.quotedList, Text.trim, Text.trimEnd, Text.trimStart]
  | cons name rest =>
    have htrim : Text.trim (Naming.quotedList (name :: rest)).toList ≠ [] := by
      obtain ⟨t, ht⟩ := exists_quotedList name rest
      obtain ⟨gap, gap', hgap, hgap', he⟩ :=
        Text.exists_trim_append (Naming.quotedList (name :: rest)).toList
      intro hempty
      have hquote : '\'' ∈ gap ++ gap' := by
        rw [hempty, List.nil_append, ht] at he
        exact he ▸ List.mem_cons_self
      have hblank : Text.isBlank '\'' = true :=
        (List.mem_append.mp hquote).elim (hgap _) (hgap' _)
      exact absurd hblank (by decide)
    rw [readList, if_neg htrim, readItems_quotedList_iff]

end Items

end ElementWrappers.Literal
