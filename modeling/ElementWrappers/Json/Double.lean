/-!
# Doubles

Finite binary floating-point numbers with 53 significant bits, in exact
arithmetic: the nearest double of a ratio, products and quotients, and the
shortest decimal text.
-/

namespace ElementWrappers

/-- `significand * 2 ^ exponent`, negated if `negative`. -/
structure Double where
  negative : Bool
  significand : Nat
  exponent : Int
  deriving DecidableEq, Repr

namespace Double

/-- `2 ^ n` -/
def twoTo (n : Nat) : Nat := Nat.pow 2 n

/-- `10 ^ n` -/
def tenTo (n : Nat) : Nat := Nat.pow 10 n

/-- The least exponent of a double. -/
def leastExponent : Int := -1074

/-- The greatest exponent of a double. -/
def greatestExponent : Int := 971

def zero : Double := ⟨false, 0, leastExponent⟩

def negate (x : Double) : Double := { x with negative := !x.negative }

def isZero (x : Double) : Bool := x.significand == 0

/-- The quotient rounded to the nearest number; a tie goes to the even one. -/
def roundDiv (num den : Nat) : Nat :=
  let q := num / den
  let rest := 2 * (num % den)
  if rest < den then q else if den < rest then q + 1 else q + q % 2

/-- `num / den * 2 ^ (-e)`, as numerator and denominator. -/
def scale (num den : Nat) (e : Int) : Nat × Nat :=
  if 0 ≤ e then (num, den * twoTo e.toNat) else (num * twoTo (-e).toNat, den)

/-- The exponent at which `num / den` has 53 bits, or the least one. -/
def exponentOf (num den : Nat) : Int :=
  let guess : Int := (num.log2 : Int) - (den.log2 : Int) - 53
  let (n, d) := scale num den guess
  max leastExponent (if twoTo 53 * d ≤ n then guess + 1 else guess)

/-- The nearest double of `num / den`, if it is not too large. -/
def ofRatio? (num den : Nat) : Option Double :=
  if num = 0 then some zero
  else
    let e := exponentOf num den
    let (n, d) := scale num den e
    let m := roundDiv n d
    let (m, e) := if m = twoTo 53 then (twoTo 52, e + 1) else (m, e)
    if greatestExponent < e then none else some ⟨false, m, e⟩

/-- The magnitude as numerator and denominator. -/
def ratio (x : Double) : Nat × Nat := scale x.significand 1 (-x.exponent)

/-- The rounded product of two magnitudes. -/
def mul? (x y : Double) : Option Double :=
  ofRatio? (x.ratio.1 * y.ratio.1) (x.ratio.2 * y.ratio.2)

/-- The rounded quotient of two magnitudes. -/
def div? (x y : Double) : Option Double :=
  ofRatio? (x.ratio.1 * y.ratio.2) (x.ratio.2 * y.ratio.1)

/-! ## Shortest digits -/

/-- The reals that round to a magnitude, times `scale`. -/
structure Interval where
  low : Nat
  value : Nat
  high : Nat
  unit : Nat
  closed : Bool

/-- The interval of a nonzero double, in quarters of its last place. Below a
power of two the neighbour is twice as near. -/
def interval (x : Double) : Interval :=
  let below := if x.significand = twoTo 52 ∧ leastExponent < x.exponent then 1 else 2
  let (n, d) := scale 1 1 (2 - x.exponent)
  let m := 4 * x.significand
  ⟨(m - below) * n, m * n, (m + 2) * n, d, x.significand % 2 == 0⟩

/-- Whether `num / den` rounds to the double of the interval. -/
def Interval.holds (i : Interval) (num den : Nat) : Bool :=
  let p := num * i.unit
  let low := i.low * den
  let high := i.high * den
  if i.closed then decide (low ≤ p) && decide (p ≤ high)
  else decide (low < p) && decide (p < high)

/-- The decimal exponent of the first digit of `num / den`. -/
def magnitude (num den : Nat) : Int :=
  if den ≤ num then ((Nat.toDigits 10 (num / den)).length : Int) - 1
  else
    let j := (Nat.toDigits 10 (den / num)).length
    if den ≤ num * tenTo (j - 1) then -((j : Int) - 1) else -(j : Int)

/-- The point of the grid `10 ^ k` in the interval that is nearest to its value. -/
def Interval.nearest? (i : Interval) (k : Int) : Option Nat :=
  let (up, down) : Nat × Nat :=
    if 0 ≤ k then (tenTo k.toNat, 1) else (1, tenTo (-k).toNat)
  let d := i.value * down / (i.unit * up)
  let below := i.holds (d * up) down
  let above := i.holds ((d + 1) * up) down
  match below, above with
  | false, false => none
  | true, false => some d
  | false, true => some (d + 1)
  | true, true =>
    let twice := 2 * (i.value * down)
    let middle := (2 * d + 1) * (i.unit * up)
    if twice < middle then some d
    else if middle < twice then some (d + 1)
    else some (d + d % 2)

/-- The first grid with a point in the interval, from the coarsest of `places`
on: the point and the exponent of the grid. -/
def Interval.coarsest (i : Interval) (top : Int) : List Nat → Nat × Int
  | [] => (0, 0)
  | n :: rest =>
    match i.nearest? (top + 1 - (n : Int)) with
    | some d => (d, top + 1 - (n : Int))
    | none => coarsest i top rest

/-- `d * 10 ^ k` without the zeros at the end of `d`; the fuel bounds their
number. -/
def stripZeros : Nat → Nat → Int → Nat × Int
  | 0, d, k => (d, k)
  | fuel + 1, d, k => if d % 10 = 0 ∧ d ≠ 0 then stripZeros fuel (d / 10) (k + 1) else (d, k)

/-- The fewest digits that read back, and the exponent of the last one. -/
def shortest (x : Double) : Nat × Int :=
  if x.significand = 0 then (0, 0)
  else
    let i := x.interval
    let top := magnitude i.value i.unit
    let (d, k) := i.coarsest top ((List.range 17).map (· + 1))
    stripZeros 20 d k

/-! ## Text -/

/-- Positional notation from `1e-5` up to below `1e16`, always with a point;
scientific notation otherwise. -/
def digitsText (digits : List Char) (k : Int) : List Char :=
  let n := digits.length
  let e : Int := k + (n : Int) - 1
  if -5 ≤ e ∧ e < 16 then
    if 0 ≤ k then digits ++ List.replicate k.toNat '0' ++ ['.', '0']
    else if 0 ≤ e then digits.take (e.toNat + 1) ++ '.' :: digits.drop (e.toNat + 1)
    else '0' :: '.' :: List.replicate ((-e).toNat - 1) '0' ++ digits
  else
    let mantissa := match digits with
      | [] => []
      | [c] => [c]
      | c :: rest => c :: '.' :: rest
    let sign := if e < 0 then '-' else '+'
    mantissa ++ 'e' :: sign :: Nat.toDigits 10 e.natAbs

def text (x : Double) : List Char :=
  let (d, k) := x.shortest
  (if x.negative then ['-'] else []) ++ digitsText (Nat.toDigits 10 d) k

end Double

end ElementWrappers
