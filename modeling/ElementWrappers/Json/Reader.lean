import ElementWrappers.Json.Numeral
import ElementWrappers.Text.Blank

/-!
# Reading JSON

The reader walks the text once with a stack of open arrays and objects. Every
fault is that of the first character that cannot continue a value. Repeated
keys are kept: `read` settles them, `readFirst` leaves them to the caller.
-/

namespace ElementWrappers.Json

/-- White space between tokens. -/
def isSpace (c : Char) : Bool := c == ' ' || c == '\n' || c == '\t' || c == '\r'

def skipSpace (cs : List Char) : List Char := cs.dropWhile isSpace

theorem length_skipSpace_le (cs : List Char) : (skipSpace cs).length ≤ cs.length :=
  Text.length_dropWhile_le _ _

theorem length_lt_of_skipSpace {cs : List Char} {c : Char} {rest : List Char}
    (h : skipSpace cs = c :: rest) : rest.length < cs.length := by
  have := length_skipSpace_le cs
  rw [h] at this
  exact this

/-! ## Strings -/

/-- The value of a hexadecimal digit. -/
def hexDigit? (c : Char) : Option Nat :=
  if c.isDigit then some (c.toNat - 48)
  else if 'a' ≤ c ∧ c ≤ 'f' then some (c.toNat - 87)
  else if 'A' ≤ c ∧ c ≤ 'F' then some (c.toNat - 55)
  else none

/-- Four hexadecimal digits. Where fewer than four bytes are left the text ends
too early. -/
def readHexQuad : List Char → Except Fault (Nat × List Char)
  | a :: b :: c :: d :: rest =>
    match hexDigit? a, hexDigit? b, hexDigit? c, hexDigit? d with
    | some a, some b, some c, some d => .ok (((a * 16 + b) * 16 + c) * 16 + d, rest)
    | _, _, _, _ => .error .malformed
  | cs => if (String.ofList cs).utf8ByteSize < 4 then .error .unfinished else .error .malformed

/-- The character of a surrogate pair. -/
def ofSurrogates (high low : Nat) : Char :=
  Char.ofNat (0x10000 + (high - 0xD800) * 0x400 + (low - 0xDC00))

/-- The second half of a surrogate pair whose first half is `high`. -/
def readLowSurrogate (high : Nat) : List Char → Except Fault (Char × List Char)
  | [] => .error .unfinished
  | ['\\'] => .error .unfinished
  | '\\' :: 'u' :: cs =>
    match readHexQuad cs with
    | .error e => .error e
    | .ok (low, rest) =>
      if 0xDC00 ≤ low ∧ low ≤ 0xDFFF then
        .ok (ofSurrogates high low, rest)
      else .error .malformed
  | _ => .error .malformed

/-- A code unit escape after its `u`. -/
def readUnicode (cs : List Char) : Except Fault (Char × List Char) :=
  match readHexQuad cs with
  | .error e => .error e
  | .ok (n, rest) =>
    if 0xDC00 ≤ n ∧ n ≤ 0xDFFF then .error .malformed
    else if 0xD800 ≤ n ∧ n ≤ 0xDBFF then readLowSurrogate n rest
    else .ok (Char.ofNat n, rest)

/-- The character of a one-letter escape. -/
def escape? : Char → Option Char
  | '"' => some '"'
  | '\\' => some '\\'
  | '/' => some '/'
  | 'b' => some '\x08'
  | 'f' => some '\x0c'
  | 'n' => some '\n'
  | 'r' => some '\r'
  | 't' => some '\t'
  | _ => none

/-- An escape after its backslash. -/
def readEscape : List Char → Except Fault (Char × List Char)
  | [] => .error .unfinished
  | c :: rest =>
    match escape? c with
    | some d => .ok (d, rest)
    | none => if c = 'u' then readUnicode rest else .error .malformed

theorem length_of_readHexQuad {cs rest : List Char} {n : Nat}
    (h : readHexQuad cs = .ok (n, rest)) : rest.length < cs.length := by
  unfold readHexQuad at h
  split at h
  · split at h
    · cases h; simp only [List.length_cons]; omega
    · cases h
  · split at h <;> cases h

theorem length_of_readLowSurrogate {high : Nat} {cs rest : List Char} {c : Char}
    (h : readLowSurrogate high cs = .ok (c, rest)) : rest.length < cs.length := by
  unfold readLowSurrogate at h
  split at h
  · cases h
  · cases h
  · split at h
    · cases h
    · rename_i hq
      have := length_of_readHexQuad hq
      split at h
      · simp only [Except.ok.injEq, Prod.mk.injEq] at h
        obtain ⟨-, rfl⟩ := h
        simp only [List.length_cons]; omega
      · cases h
  · cases h

theorem length_of_readEscape {cs rest : List Char} {c : Char}
    (h : readEscape cs = .ok (c, rest)) : rest.length < cs.length := by
  unfold readEscape at h
  split at h
  · cases h
  · split at h
    · cases h; simp
    · split at h
      · unfold readUnicode at h
        split at h
        · cases h
        · rename_i hq
          have := length_of_readHexQuad hq
          split at h
          · cases h
          · split at h
            · have := length_of_readLowSurrogate h
              simp only [List.length_cons]; omega
            · simp only [Except.ok.injEq, Prod.mk.injEq] at h
              obtain ⟨-, rfl⟩ := h
              simp only [List.length_cons]; omega
      · cases h

/-- A string after its opening quote. -/
def readString (cs : List Char) : Except Fault (List Char × List Char) :=
  match cs with
  | [] => .error .unfinished
  | '"' :: rest => .ok ([], rest)
  | '\\' :: rest =>
    match h : readEscape rest with
    | .error e => .error e
    | .ok (c, rest') =>
      have := length_of_readEscape h
      match readString rest' with
      | .error e => .error e
      | .ok (text, after) => .ok (c :: text, after)
  | c :: rest =>
    if c.toNat < 32 then .error .malformed
    else
      match readString rest with
      | .error e => .error e
      | .ok (text, after) => .ok (c :: text, after)
termination_by cs.length

theorem length_of_readString {cs text rest : List Char}
    (h : readString cs = .ok (text, rest)) : rest.length < cs.length := by
  induction hn : cs.length using Nat.strongRecOn generalizing cs text rest with
  | ind n ih =>
    subst hn
    unfold readString at h
    split at h
    · cases h
    · cases h; simp
    · split at h
      · cases h
      · rename_i he
        have hl := length_of_readEscape he
        split at h
        · cases h
        · rename_i hs
          cases h
          have := ih _ (by simp only [List.length_cons]; omega) hs rfl
          simp only [List.length_cons]; omega
    · split at h
      · cases h
      · split at h
        · cases h
        · rename_i hs
          cases h
          have := ih _ (by simp) hs rfl
          simp only [List.length_cons]; omega

/-! ## Literals and numerals -/

/-- `cs` after the given characters. -/
def readLiteral (value : Json) : List Char → List Char → Except Fault (Json × List Char)
  | [], cs => .ok (value, cs)
  | _ :: _, [] => .error .unfinished
  | a :: as, c :: cs => if c = a then readLiteral value as cs else .error .malformed

def digitValue (c : Char) : Nat := c.toNat - 48

/-- The digits at the start of `cs`, and the rest. -/
def readDigits (cs : List Char) : List Nat × List Char :=
  ((cs.takeWhile Char.isDigit).map digitValue, cs.dropWhile Char.isDigit)

/-- At least one digit. -/
def readSomeDigits : List Char → Except Fault (List Nat × List Char)
  | [] => .error .unfinished
  | c :: cs => if c.isDigit then .ok (readDigits (c :: cs)) else .error .malformed

/-- The part before the point: no zero stands in front of another digit. -/
def readWhole : List Char → Except Fault (List Nat × List Char)
  | '0' :: c :: cs => if c.isDigit then .error .malformed else .ok ([0], c :: cs)
  | cs => readSomeDigits cs

def readFraction : List Char → Except Fault (Option (List Nat) × List Char)
  | '.' :: cs =>
    match readSomeDigits cs with
    | .error e => .error e
    | .ok (digits, rest) => .ok (some digits, rest)
  | cs => .ok (none, cs)

/-- The sign and the digits of an exponent. -/
def readShift (cs : List Char) : Except Fault (Option (Bool × List Nat) × List Char) :=
  let (positive, cs) := match cs with
    | '+' :: rest => (true, rest)
    | '-' :: rest => (false, rest)
    | rest => (true, rest)
  match readSomeDigits cs with
  | .error e => .error e
  | .ok (digits, rest) => .ok (some (positive, digits), rest)

def readExponent : List Char → Except Fault (Option (Bool × List Nat) × List Char)
  | 'e' :: cs => readShift cs
  | 'E' :: cs => readShift cs
  | cs => .ok (none, cs)

/-- A numeral after its sign. -/
def readNumeral (negative : Bool) (cs : List Char) : Except Fault (Json × List Char) :=
  match readWhole cs with
  | .error e => .error e
  | .ok (whole, cs) =>
    match readFraction cs with
    | .error e => .error e
    | .ok (fraction, cs) =>
      match readExponent cs with
      | .error e => .error e
      | .ok (exponent, cs) =>
        match Numeral.value ⟨negative, whole, fraction, exponent⟩ with
        | none => .error .malformed
        | some v => .ok (v, cs)

theorem length_of_readLiteral {v w : Json} {as cs rest : List Char}
    (h : readLiteral v as cs = .ok (w, rest)) : rest.length ≤ cs.length := by
  induction as generalizing cs with
  | nil => cases h; exact Nat.le_refl _
  | cons a as ih =>
    cases cs with
    | nil => cases h
    | cons c cs =>
      simp only [readLiteral] at h
      split at h
      · have := ih h
        simp only [List.length_cons]; omega
      · cases h

theorem length_of_readSomeDigits {cs rest : List Char} {digits : List Nat}
    (h : readSomeDigits cs = .ok (digits, rest)) : rest.length < cs.length := by
  unfold readSomeDigits at h
  split at h
  · cases h
  · split at h
    · rename_i hd
      cases h
      simp only [List.dropWhile_cons, hd, ↓reduceIte, List.length_cons]
      exact Nat.lt_succ_of_le (Text.length_dropWhile_le _ _)
    · cases h

theorem length_of_readWhole {cs rest : List Char} {digits : List Nat}
    (h : readWhole cs = .ok (digits, rest)) : rest.length < cs.length := by
  unfold readWhole at h
  split at h
  · split at h
    · cases h
    · cases h; simp
  · exact length_of_readSomeDigits h

theorem length_of_readFraction {cs rest : List Char} {digits : Option (List Nat)}
    (h : readFraction cs = .ok (digits, rest)) : rest.length ≤ cs.length := by
  unfold readFraction at h
  split at h
  · split at h
    · cases h
    · rename_i hd
      cases h
      have := length_of_readSomeDigits hd
      simp only [List.length_cons]; omega
  · cases h; exact Nat.le_refl _

theorem length_of_readShift {cs rest : List Char} {shift : Option (Bool × List Nat)}
    (h : readShift cs = .ok (shift, rest)) : rest.length ≤ cs.length := by
  simp only [readShift] at h
  split at h
  · cases h
  · rename_i hd
    cases h
    have := length_of_readSomeDigits hd
    revert this
    split <;> intro this <;> simp_all <;> omega

theorem length_of_readExponent {cs rest : List Char} {shift : Option (Bool × List Nat)}
    (h : readExponent cs = .ok (shift, rest)) : rest.length ≤ cs.length := by
  unfold readExponent at h
  split at h
  · exact Nat.le_succ_of_le (length_of_readShift h)
  · exact Nat.le_succ_of_le (length_of_readShift h)
  · cases h; exact Nat.le_refl _

theorem length_of_readNumeral {negative : Bool} {cs rest : List Char} {v : Json}
    (h : readNumeral negative cs = .ok (v, rest)) : rest.length < cs.length := by
  unfold readNumeral at h
  split at h
  · cases h
  · rename_i hw
    have h1 := length_of_readWhole hw
    split at h
    · cases h
    · rename_i hf
      have h2 := length_of_readFraction hf
      split at h
      · cases h
      · rename_i he
        have h3 := length_of_readExponent he
        split at h
        · cases h
        · cases h; omega

/-- A literal or a number that begins with `c`. -/
def readLeaf (c : Char) (cs : List Char) : Except Fault (Json × List Char) :=
  if c = 'n' then readLiteral .null ['u', 'l', 'l'] cs
  else if c = 't' then readLiteral (.bool true) ['r', 'u', 'e'] cs
  else if c = 'f' then readLiteral (.bool false) ['a', 'l', 's', 'e'] cs
  else if c = '-' then readNumeral true cs
  else if c.isDigit then readNumeral false (c :: cs)
  else .error .malformed

theorem length_of_readLeaf {c : Char} {cs rest : List Char} {v : Json}
    (h : readLeaf c cs = .ok (v, rest)) : rest.length ≤ cs.length := by
  unfold readLeaf at h
  split at h
  · exact length_of_readLiteral h
  split at h
  · exact length_of_readLiteral h
  split at h
  · exact length_of_readLiteral h
  split at h
  · exact Nat.le_of_lt (length_of_readNumeral h)
  split at h
  · exact Nat.le_of_lt_succ (length_of_readNumeral h)
  · cases h

/-! ## Arrays and objects -/

/-- An array or object that is still open, its items or members in reverse. -/
inductive Frame where
  | items (before : List Json)
  | members (before : List (String × Json)) (key : String)

/-- The greatest number of arrays and objects inside each other. -/
def deepest : Nat := 127

/-- A key and its colon. -/
def readKey (cs : List Char) : Except Fault (String × List Char) :=
  match skipSpace cs with
  | [] => .error .unfinished
  | '"' :: rest =>
    match readString rest with
    | .error e => .error e
    | .ok (key, rest') =>
      match skipSpace rest' with
      | [] => .error .unfinished
      | ':' :: after => .ok (String.ofList key, after)
      | _ :: _ => .error .malformed
  | _ :: _ => .error .malformed

theorem length_of_readKey {cs rest : List Char} {key : String}
    (h : readKey cs = .ok (key, rest)) : rest.length < cs.length := by
  unfold readKey at h
  split at h
  · cases h
  · rename_i hs
    have h1 := length_lt_of_skipSpace hs
    split at h
    · cases h
    · rename_i hk
      have h2 := length_of_readString hk
      split at h
      · cases h
      · rename_i hc
        have h3 := length_lt_of_skipSpace hc
        cases h; omega
      · cases h
  · cases h

mutual

/-- Reads a value inside the open arrays and objects of `stack`, and goes on
until all of them are closed. -/
def readValue (stack : List Frame) (cs : List Char) : Except Fault (Json × List Char) :=
  match hs : skipSpace cs with
  | [] => .error .unfinished
  | c :: rest =>
    have := length_lt_of_skipSpace hs
    if c = '"' then
      match h : readString rest with
      | .error e => .error e
      | .ok (text, after) =>
        have := length_of_readString h
        resume stack (.str (String.ofList text)) after
    else if c = '[' then
      if deepest ≤ stack.length then .error .malformed
      else
        match h : skipSpace rest with
        | [] => .error .unfinished
        | d :: after =>
          have := length_lt_of_skipSpace h
          if d = ']' then resume stack (.arr []) after else readValue (.items [] :: stack) rest
    else if c = '{' then
      if deepest ≤ stack.length then .error .malformed
      else
        match h : skipSpace rest with
        | [] => .error .unfinished
        | d :: after =>
          have := length_lt_of_skipSpace h
          if d = '}' then resume stack (.obj []) after
          else
            match h : readKey rest with
            | .error e => .error e
            | .ok (key, after) =>
              have := length_of_readKey h
              readValue (.members [] key :: stack) after
    else
      match h : readLeaf c rest with
      | .error e => .error e
      | .ok (v, after) =>
        have := length_of_readLeaf h
        resume stack v after
termination_by cs.length

/-- Goes on after the value `v`. -/
def resume (stack : List Frame) (v : Json) (cs : List Char) : Except Fault (Json × List Char) :=
  match stack with
  | [] => .ok (v, cs)
  | .items before :: outer =>
    match hs : skipSpace cs with
    | [] => .error .unfinished
    | c :: rest =>
      have := length_lt_of_skipSpace hs
      if c = ']' then resume outer (.arr (v :: before).reverse) rest
      else if c = ',' then readValue (.items (v :: before) :: outer) rest
      else .error .malformed
  | .members before key :: outer =>
    match hs : skipSpace cs with
    | [] => .error .unfinished
    | c :: rest =>
      have := length_lt_of_skipSpace hs
      if c = '}' then resume outer (.obj ((key, v) :: before).reverse) rest
      else if c = ',' then
        match h : readKey rest with
        | .error e => .error e
        | .ok (next, after) =>
          have := length_of_readKey h
          readValue (.members ((key, v) :: before) next :: outer) after
      else .error .malformed
termination_by cs.length

end

/-- The value at the start of a text, and the text after it. Repeated keys are
kept. -/
def readFirst (cs : List Char) : Except Fault (Json × List Char) := readValue [] cs

/-- Whether nothing but white space is left. -/
def atEnd (cs : List Char) : Bool := (skipSpace cs).isEmpty

/-- The value of a whole text, with distinct keys. -/
def read (text : String) : Except Fault Json :=
  match readFirst text.toList with
  | .error e => .error e
  | .ok (v, rest) => if atEnd rest then .ok v.distinct else .error .malformed

end ElementWrappers.Json
