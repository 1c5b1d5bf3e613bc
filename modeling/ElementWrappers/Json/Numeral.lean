import ElementWrappers.Json.Basic

/-!
# Numerals

The number a numeral stands for. Whole numbers that fit 64 bits, with or
without a sign, are kept as they are. Every other numeral is a double: the
digits that fit 64 bits are one whole number, which a power of ten multiplies
or divides.
-/

namespace ElementWrappers.Json

/-- The parts of a numeral, as digits. -/
structure Numeral where
  negative : Bool
  whole : List Nat
  fraction : Option (List Nat)
  /-- Whether the exponent is positive, and its digits. -/
  exponent : Option (Bool × List Nat)

namespace Numeral

/-- `digits` appended to `n` as long as `limit` is not exceeded, and the number
of digits that are left. -/
def append (limit : Nat) (n : Nat) : List Nat → Nat × Nat
  | [] => (n, 0)
  | d :: rest => if limit < 10 * n + d then (n, rest.length + 1) else append limit (10 * n + d) rest

/-- The greatest unsigned 64-bit number. -/
def greatestWhole : Nat := Double.twoTo 64 - 1

/-- The greatest signed 32-bit number. -/
def greatestExponent : Nat := Double.twoTo 31 - 1

/-- `n` between the signed 32-bit numbers. -/
def clamp (n : Int) : Int := max (-(greatestExponent : Int) - 1) (min n greatestExponent)

/-- The nearest double of a power of ten. -/
def tenTo (k : Nat) : Option Double := Double.ofRatio? (Double.tenTo k) 1

/-- `x * 10 ^ e` in steps of at most 308 places, if it is not too large;
`power k` is the double of `10 ^ k`. -/
def scaleByTen (power : Nat → Option Double) (x : Double) (e : Int) : Option Double :=
  if e < -308 then
    if x.isZero then some x
    else
      match power 308 with
      | none => none
      | some p =>
        match x.div? p with
        | none => none
        | some y => scaleByTen power y (e + 308)
  else if 308 < e then if x.isZero then some x else none
  else
    match power e.natAbs with
    | none => none
    | some p => if 0 ≤ e then x.mul? p else x.div? p
termination_by e.natAbs

/-- The double of a significand and a decimal exponent. -/
def toDouble (negative : Bool) (significand : Nat) (e : Int) : Option Json :=
  match Double.ofRatio? significand 1 with
  | none => none
  | some x =>
    match scaleByTen tenTo x e with
    | none => none
    | some y => some (.double (if negative then y.negate else y))

/-- A whole number without point and exponent. -/
def ofWhole (negative : Bool) (n : Nat) : Option Json :=
  if negative then
    if n = 0 ∨ Double.twoTo 63 < n then toDouble true n 0 else some (.int (-(n : Int)))
  else some (.int n)

/-- The number of a numeral, if it is not too large. -/
def value (x : Numeral) : Option Json :=
  let (n, left) := append greatestWhole 0 x.whole
  match x.fraction, x.exponent with
  | none, none => if left = 0 then ofWhole x.negative n else toDouble x.negative n left
  | fraction, exponent =>
    let digits := fraction.getD []
    let (n, unread) := append greatestWhole n digits
    let e : Int := (left : Int) - ((digits.length - unread : Nat) : Int)
    match exponent with
    | none => toDouble x.negative n e
    | some (positive, digits) =>
      let (shift, unread) := append greatestExponent 0 digits
      if unread = 0 then
        toDouble x.negative n (clamp (if positive then e + shift else e - shift))
      else if n ≠ 0 ∧ positive then none
      else toDouble x.negative 0 0

end Numeral

end ElementWrappers.Json
