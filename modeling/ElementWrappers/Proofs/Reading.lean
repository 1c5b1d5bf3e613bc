import ElementWrappers.Proofs.Nesting

/-!
# Reading printed types from left to right

A reader rewrites a text from left to right and copies what separates types.
`Turns x y`: where a type may stand, `x` becomes `y`. Lists, brackets and braces
pass this on from the parts to the whole.
-/

namespace ElementWrappers.TypeExpr

/-- The characters between printed types. -/
def dividers : List Char :=
  [' ', ',', '<', '>', '(', ')', '[', ']', '\x7b', '\x7d', '|', '&', '=']

/-- Whether a type may end before these characters and another begin after
them. -/
def separates (s : List Char) : Bool :=
  s.all dividers.contains && s.any fun c => !Text.isBlank c

/-- What stands before the items of a list and before the members of an object. -/
def listing : List (List Char) := [[',', ' '], ['\x7b', ' ']]

theorem of_mem_dividers {c : Char} (h : c ∈ dividers) :
    c ∈ breaks ∧ isQuote c = false ∧ isNamePart c = false ∧ c ≠ ':' ∧ c ≠ '?' ∧ c ≠ '.' := by
  have hall : dividers.all (fun c => breaks.contains c && (!isQuote c) && (!isNamePart c) &&
      (c != ':') && (c != '?') && (c != '.')) = true := by decide +kernel
  have hc := List.all_eq_true.mp hall c h
  simp only [Bool.and_eq_true, List.contains_iff_mem, Bool.not_eq_true', bne_iff_ne] at hc
  obtain ⟨⟨⟨⟨⟨h1, h2⟩, h3⟩, h4⟩, h5⟩, h6⟩ := hc
  exact ⟨h1, h2, h3, h4, h5, h6⟩

theorem mem_dividers {s : List Char} (h : separates s = true) {c : Char} (hc : c ∈ s) :
    c ∈ dividers := by
  simp only [separates, Bool.and_eq_true] at h
  simpa using List.all_eq_true.mp h.1 c hc

/-- A separator begins with a divider. -/
theorem separates_cons {s : List Char} (h : separates s = true) :
    ∃ c rest, s = c :: rest ∧ c ∈ dividers := by
  cases s with
  | nil => cases h
  | cons c rest => exact ⟨c, rest, rfl, mem_dividers h List.mem_cons_self⟩

/-- A way of rewriting a text from left to right. -/
structure Reader where
  State : Type
  run : State → List Char → List Char
  /-- A type may begin here; with `true` also the key of an object. -/
  Begins : Bool → State → Prop
  /-- A type may have ended here. -/
  Ends : State → Prop
  /-- A type may end before this text. -/
  Closes : List Char → Prop
  ends_of_begins : ∀ {l : Bool} {p : State}, Begins l p → Ends p
  closes_separator : ∀ {s : List Char}, separates s = true → ∀ after, Closes (s ++ after)
  run_separator : ∀ {s : List Char} {l : Bool} {p : State}, separates s = true →
    (l = true → s ∈ listing) → Ends p →
      ∃ q, Begins l q ∧ ∀ after, run p (s ++ after) = s ++ run q after

namespace Reader

/-- Where a type may stand, and a key if it is `listed`, `x` becomes `y`. -/
def Turns (R : Reader) (listed : Bool) (x y : List Char) : Prop :=
  ∀ (p : R.State) (after : List Char), R.Begins listed p → R.Closes after →
    ∃ q, R.Ends q ∧ R.run p (x ++ after) = y ++ R.run q after

namespace Turns

variable {R : Reader} {l l' : Bool} {x x' y y' s : List Char}

theorem nil : R.Turns l [] [] := fun p _ hp _ => ⟨p, R.ends_of_begins hp, rfl⟩

theorem between (hx : R.Turns l x y) (hs : separates s = true) (hl : l' = true → s ∈ listing)
    (hx' : R.Turns l' x' y') : R.Turns l (x ++ (s ++ x')) (y ++ (s ++ y')) := by
  intro p after hp ha
  obtain ⟨q, hq, he⟩ := hx p (s ++ (x' ++ after)) hp (R.closes_separator hs _)
  obtain ⟨r, hr, hsep⟩ := R.run_separator hs hl hq
  obtain ⟨t, ht, he'⟩ := hx' r after hr ha
  refine ⟨t, ht, ?_⟩
  rw [List.append_assoc, List.append_assoc, he, hsep, he']
  simp only [List.append_assoc]

/-- Separators before a type. -/
theorem after (hs : separates s = true) (hl : l' = true → s ∈ listing) (hx : R.Turns l' x y) :
    R.Turns l (s ++ x) (s ++ y) := nil.between hs hl hx

/-- Separators behind a type. -/
theorem before (hx : R.Turns l x y) (hs : separates s = true) : R.Turns l (x ++ s) (y ++ s) := by
  simpa using hx.between hs (fun h => by cases h) (nil (l := false))

section Lists

variable {α : Type} {u v : α → List Char} {ts : List α}

theorem commas (h : ∀ t ∈ ts, R.Turns l (u t) (v t)) :
    R.Turns l (commas (ts.map u)) (commas (ts.map v)) := by
  induction ts with
  | nil => exact nil
  | cons t rest ih =>
    have ht := h t List.mem_cons_self
    cases rest with
    | nil => simpa [TypeExpr.commas] using ht
    | cons t' rest =>
      have hrest := ih fun w hw => h w (List.mem_cons_of_mem _ hw)
      have hsep : separates [',', ' '] = true := by decide
      simpa [TypeExpr.commas, List.intercalate_cons_cons] using
        ht.between hsep (fun _ => List.mem_cons_self) hrest

theorem enclosed {o c : Char} (hb : (o, c) ∈ brackets) (h : ∀ t ∈ ts, R.Turns false (u t) (v t)) :
    R.Turns l (enclosed o c (ts.map u)) (enclosed o c (ts.map v)) := by
  have hall : ∀ p ∈ brackets, separates [p.1] = true ∧ separates [p.2] = true := by decide
  obtain ⟨ho, hc⟩ := hall _ hb
  exact after ho (fun h => by cases h) ((commas h).before hc)

theorem parens (h : R.Turns false x y) :
    R.Turns l (TypeExpr.enclosed '(' ')' [x]) (TypeExpr.enclosed '(' ')' [y]) := by
  have hb : ('(', ')') ∈ brackets := by decide
  show R.Turns l (TypeExpr.enclosed '(' ')' ([()].map fun _ => x))
    (TypeExpr.enclosed '(' ')' ([()].map fun _ => y))
  exact enclosed hb fun _ _ => h

theorem braced (h : ∀ t ∈ ts, R.Turns true (u t) (v t)) :
    R.Turns l (braced (ts.map u)) (braced (ts.map v)) := by
  cases ts with
  | nil => exact nil.before (by decide)
  | cons t rest =>
    have hopen : separates ['\x7b', ' '] = true := by decide
    exact after hopen (fun _ => by decide) ((commas h).before (by decide))

end Lists

end Turns

end Reader

end ElementWrappers.TypeExpr
