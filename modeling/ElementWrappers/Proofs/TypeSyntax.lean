import ElementWrappers.Proofs.WordRename

/-!
# Syntax trees of payload types

The types that events are declared with, how they are printed, and what it means
to rename the names they begin with. `Ty.induct` is the induction on trees with
one hypothesis for all arguments, items or members.
-/

namespace ElementWrappers.TypeExpr

/-! ## Names -/

/-- Whether `c` may stand in an ASCII identifier. -/
def isAsciiPart (c : Char) : Bool := isNameStart c || c.isDigit

def isAsciiName : List Char → Bool
  | [] => false
  | c :: rest => isNameStart c && rest.all isAsciiPart

/-- An ASCII identifier. -/
structure Name where
  chars : List Char
  isIdentifier : isAsciiName chars = true
  deriving DecidableEq

theorem toNat_lt_of_isAsciiPart {c : Char} (h : isAsciiPart c = true) : c.toNat < 128 := by
  simp only [isAsciiPart, isNameStart, Bool.or_eq_true, beq_iff_eq] at h
  rcases h with ((h | rfl) | rfl) | h
  · simp only [Char.isAlpha, Char.isUpper, Char.isLower, ge_iff_le, Bool.or_eq_true,
      Bool.and_eq_true, decide_eq_true_eq, UInt32.le_iff_toNat_le] at h
    have h1 : c.val.toNat ≤ 122 := by
      rcases h with ⟨-, h⟩ | ⟨-, h⟩
      · exact Nat.le_trans h (by decide)
      · exact h
    exact Nat.lt_of_le_of_lt h1 (by decide)
  · decide
  · decide
  · simp only [Char.isDigit, ge_iff_le, Bool.and_eq_true, decide_eq_true_eq,
      UInt32.le_iff_toNat_le] at h
    exact Nat.lt_of_le_of_lt h.2 (by decide)

/-- The characters of identifiers, one by one. -/
theorem of_isAsciiPart {c : Char} (h : isAsciiPart c = true) :
    isIdentifierChar c = true ∧ isNamePart c = true := by
  have hall : (List.range 128).all (fun n => !isAsciiPart (Char.ofNat n) ||
      (isIdentifierChar (Char.ofNat n) && isNamePart (Char.ofNat n))) = true := by decide +kernel
  have hc := List.all_eq_true.mp hall c.toNat (List.mem_range.mpr (toNat_lt_of_isAsciiPart h))
  rw [Char.ofNat_toNat, h] at hc
  simpa using hc

namespace Name

def text (x : Name) : String := String.ofList x.chars

/-- An identifier begins like one and goes on like one. -/
theorem eq_cons (x : Name) : ∃ c rest, x.chars = c :: rest ∧ isNameStart c = true ∧
    ∀ d ∈ rest, isAsciiPart d = true := by
  obtain ⟨chars, h⟩ := x
  cases chars with
  | nil => cases h
  | cons c rest =>
    simp only [isAsciiName, Bool.and_eq_true, List.all_eq_true] at h
    exact ⟨c, rest, rfl, h.1, h.2⟩

theorem isAsciiPart_of_mem {x : Name} {c : Char} (h : c ∈ x.chars) : isAsciiPart c = true := by
  obtain ⟨d, rest, he, hd, hrest⟩ := x.eq_cons
  rw [he] at h
  rcases List.mem_cons.mp h with rfl | h
  · rw [isAsciiPart, hd, Bool.true_or]
  · exact hrest c h

theorem isWord (x : Name) : IsWord x.chars := by
  refine ⟨?_, fun c hc => (of_isAsciiPart (isAsciiPart_of_mem hc)).1⟩
  obtain ⟨c, rest, he, -⟩ := x.eq_cons
  rw [he]
  exact List.cons_ne_nil _ _

theorem isName_chars (x : Name) : isName x.chars = true := by
  obtain ⟨c, rest, he, hc, hrest⟩ := x.eq_cons
  rw [he, isName, hc, Bool.true_and, List.all_eq_true]
  exact fun d hd => (of_isAsciiPart (hrest d hd)).2

theorem ext_chars {x y : Name} (h : x.chars = y.chars) : x = y := by
  cases x
  cases y
  cases h
  rfl

end Name

/-- What stands between the quotes of a literal. -/
structure Label where
  chars : List Char
  areWordChars : chars.all isIdentifierChar = true
  deriving DecidableEq

/-! ## Trees -/

inductive Mark where
  | union
  | intersection
  deriving DecidableEq

def Mark.char : Mark → Char
  | union => '|'
  | intersection => '&'

/-- The name of a member or a parameter. -/
structure Key where
  name : Name
  optional : Bool := false
  deriving DecidableEq

inductive Ty where
  /-- A name, and the names after its dots. -/
  | path (first : Name) (tail : List Name)
  | generic (first : Name) (tail : List Name) (arguments : List Ty)
  | array (item : Ty)
  | tuple (items : List Ty)
  /-- A type in parentheses. -/
  | group (inner : Ty)
  | join (left : Ty) (mark : Mark) (right : Ty)
  | literal (label : Label)
  | object (members : List (Key × Ty))
  | function (parameters : List (Key × Ty)) (result : Ty)

namespace Ty

/-- Induction on types, with the hypothesis for every part. -/
theorem induct {P : Ty → Prop} (path : ∀ first tail, P (path first tail))
    (generic : ∀ first tail arguments, (∀ t ∈ arguments, P t) → P (generic first tail arguments))
    (array : ∀ item, P item → P (array item))
    (tuple : ∀ items, (∀ t ∈ items, P t) → P (tuple items))
    (group : ∀ inner, P inner → P (group inner))
    (join : ∀ left mark right, P left → P right → P (join left mark right))
    (literal : ∀ label, P (literal label))
    (object : ∀ members, (∀ m ∈ members, P m.2) → P (object members))
    (function : ∀ parameters result, (∀ m ∈ parameters, P m.2) → P result →
      P (function parameters result)) (t : Ty) : P t := by
  refine @Ty.rec P (fun ts => ∀ t ∈ ts, P t) (fun ms => ∀ m ∈ ms, P m.2) (fun m => P m.2) path
    generic array tuple group join literal object function ?_ ?_ ?_ ?_ ?_ t
  · exact fun t ht => absurd ht List.not_mem_nil
  · intro t rest ht hrest u hu
    rcases List.mem_cons.mp hu with rfl | hu
    · exact ht
    · exact hrest u hu
  · exact fun m hm => absurd hm List.not_mem_nil
  · intro m rest hm hrest n hn
    rcases List.mem_cons.mp hn with rfl | hn
    · exact hm
    · exact hrest n hn
  · exact fun k t ht => ht

end Ty

/-! ## Printing -/

def commas (items : List (List Char)) : List Char := [',', ' '].intercalate items

/-- A list between brackets. -/
def enclosed (opening closing : Char) (items : List (List Char)) : List Char :=
  opening :: (commas items ++ [closing])

/-- The members of an object type between braces. -/
def braced : List (List Char) → List Char
  | [] => ['\x7b', '\x7d']
  | item :: rest => ['\x7b', ' '] ++ (commas (item :: rest) ++ [' ', '\x7d'])

/-- The names after the dots of a path. -/
def dotted (tail : List Name) : List Char := tail.flatMap fun x => '.' :: x.chars

def Key.print (k : Key) : List Char := k.name.chars ++ if k.optional then ['?'] else []

namespace Ty

/-- Whether an array of these is written with parentheses. -/
def needsParens : Ty → Bool
  | join _ _ _ | function _ _ => true
  | _ => false

mutual

def print : Ty → List Char
  | path first tail => first.chars ++ dotted tail
  | generic first tail arguments =>
    first.chars ++ (dotted tail ++ enclosed '<' '>' (printAll arguments))
  | array item =>
    (if item.needsParens then enclosed '(' ')' [print item] else print item) ++ ['[', ']']
  | tuple items => enclosed '[' ']' (printAll items)
  | group inner => enclosed '(' ')' [print inner]
  | join left mark right => print left ++ ([' ', mark.char, ' '] ++ print right)
  | literal label => '\'' :: (label.chars ++ ['\''])
  | object members => braced (printMembers members)
  | function parameters result =>
    enclosed '(' ')' (printMembers parameters) ++ ([' ', '=', '>', ' '] ++ print result)

def printAll : List Ty → List (List Char)
  | [] => []
  | t :: rest => print t :: printAll rest

def printMembers : List (Key × Ty) → List (List Char)
  | [] => []
  | (k, t) :: rest => (k.print ++ ([':', ' '] ++ print t)) :: printMembers rest

end

/-- A member or a parameter as printed. -/
def printMember (m : Key × Ty) : List Char := m.1.print ++ ([':', ' '] ++ m.2.print)

@[simp] theorem printAll_eq_map (ts : List Ty) : printAll ts = ts.map print := by
  induction ts with
  | nil => rfl
  | cons t rest ih => rw [printAll, ih, List.map_cons]

@[simp] theorem printMembers_eq_map (ms : List (Key × Ty)) : printMembers ms = ms.map printMember := by
  induction ms with
  | nil => rfl
  | cons m rest ih => rw [printMembers, ih, List.map_cons, printMember]

/-! ## Renaming -/

mutual

/-- Renames the name at the front of every path. -/
def mapNames (f : Name → Name) : Ty → Ty
  | path first tail => path (f first) tail
  | generic first tail arguments => generic (f first) tail (mapAll f arguments)
  | array item => array (mapNames f item)
  | tuple items => tuple (mapAll f items)
  | group inner => group (mapNames f inner)
  | join left mark right => join (mapNames f left) mark (mapNames f right)
  | literal label => literal label
  | object members => object (mapMembers f members)
  | function parameters result => function (mapMembers f parameters) (mapNames f result)

def mapAll (f : Name → Name) : List Ty → List Ty
  | [] => []
  | t :: rest => mapNames f t :: mapAll f rest

def mapMembers (f : Name → Name) : List (Key × Ty) → List (Key × Ty)
  | [] => []
  | (k, t) :: rest => (k, mapNames f t) :: mapMembers f rest

end

@[simp] theorem mapAll_eq_map (f : Name → Name) (ts : List Ty) : mapAll f ts = ts.map (mapNames f) := by
  induction ts with
  | nil => rfl
  | cons t rest ih => rw [mapAll, ih, List.map_cons]

@[simp] theorem mapMembers_eq_map (f : Name → Name) (ms : List (Key × Ty)) :
    mapMembers f ms = ms.map fun m => (m.1, m.2.mapNames f) := by
  induction ms with
  | nil => rfl
  | cons m rest ih => rw [mapMembers, ih, List.map_cons]

@[simp] theorem needsParens_mapNames (f : Name → Name) (t : Ty) :
    (t.mapNames f).needsParens = t.needsParens := by
  cases t <;> rfl

/-! ## Names of a type -/

mutual

/-- The names at the front of paths. -/
def leadingNames : Ty → List Name
  | path first _ => [first]
  | generic first _ arguments => first :: leadingNamesAll arguments
  | array item => leadingNames item
  | tuple items => leadingNamesAll items
  | group inner => leadingNames inner
  | join left _ right => leadingNames left ++ leadingNames right
  | literal _ => []
  | object members => leadingNamesMembers members
  | function parameters result => leadingNamesMembers parameters ++ leadingNames result

def leadingNamesAll : List Ty → List Name
  | [] => []
  | t :: rest => leadingNames t ++ leadingNamesAll rest

def leadingNamesMembers : List (Key × Ty) → List Name
  | [] => []
  | (_, t) :: rest => leadingNames t ++ leadingNamesMembers rest

end

@[simp] theorem mem_leadingNamesAll {x : Name} {ts : List Ty} :
    x ∈ leadingNamesAll ts ↔ ∃ t ∈ ts, x ∈ t.leadingNames := by
  induction ts with
  | nil => simp [leadingNamesAll]
  | cons t rest ih => simp [leadingNamesAll, ih]

@[simp] theorem mem_leadingNamesMembers {x : Name} {ms : List (Key × Ty)} :
    x ∈ leadingNamesMembers ms ↔ ∃ m ∈ ms, x ∈ m.2.leadingNames := by
  induction ms with
  | nil => simp [leadingNamesMembers]
  | cons m rest ih => simp [leadingNamesMembers, ih]

mutual

/-- The names of the parameters of function types. -/
def parameterNames : Ty → List Name
  | path _ _ => []
  | generic _ _ arguments => parameterNamesAll arguments
  | array item => parameterNames item
  | tuple items => parameterNamesAll items
  | group inner => parameterNames inner
  | join left _ right => parameterNames left ++ parameterNames right
  | literal _ => []
  | object members => parameterNamesMembers members
  | function parameters result =>
    parameters.map (·.1.name) ++ (parameterNamesMembers parameters ++ parameterNames result)

def parameterNamesAll : List Ty → List Name
  | [] => []
  | t :: rest => parameterNames t ++ parameterNamesAll rest

def parameterNamesMembers : List (Key × Ty) → List Name
  | [] => []
  | (_, t) :: rest => parameterNames t ++ parameterNamesMembers rest

end

@[simp] theorem mem_parameterNamesAll {x : Name} {ts : List Ty} :
    x ∈ parameterNamesAll ts ↔ ∃ t ∈ ts, x ∈ t.parameterNames := by
  induction ts with
  | nil => simp [parameterNamesAll]
  | cons t rest ih => simp [parameterNamesAll, ih]

@[simp] theorem mem_parameterNamesMembers {x : Name} {ms : List (Key × Ty)} :
    x ∈ parameterNamesMembers ms ↔ ∃ m ∈ ms, x ∈ m.2.parameterNames := by
  induction ms with
  | nil => simp [parameterNamesMembers]
  | cons m rest ih => simp [parameterNamesMembers, ih]

end Ty

end ElementWrappers.TypeExpr
