/-
# The fewest digits that read back

A positive double is the nearest one to every real of an interval around it (its
ends included exactly when the significand is even). Among the decimals of
`1, 2, …, 17` digits the first length with a point in that interval wins; the
point is the one of the two neighbours of the double that is nearer, and the
even one of two equally near. The layout of the digits is a record of its own.
-/
import HtmlCompose.Decimal.Double

namespace HtmlCompose
namespace Decimal

/-- A decimal `digits · 10 ^ exponent`. -/
structure Scaled where
  /-- the digits without leading or trailing zeros -/
  digits : Nat
  /-- the power of ten of the last digit -/
  exponent : Int
deriving DecidableEq, Repr

/-- An interval of reals around `value / den`, all three over one denominator. -/
structure Interval where
  /-- lower end -/
  low : Nat
  /-- the double itself -/
  value : Nat
  /-- upper end -/
  high : Nat
  /-- the common denominator -/
  den : Nat
  /-- the ends belong to the interval -/
  closed : Bool

/-- The reals that round to the double `m · 2 ^ (q - 1074)`. -/
def Interval.around (m q : Nat) : Interval :=
  let low := if m = Nat.pow 2 52 ∧ q ≠ 0 then 4 * m - 1 else 4 * m - 2
  { low := low * Nat.pow 2 q, value := 4 * m * Nat.pow 2 q, high := (4 * m + 2) * Nat.pow 2 q,
    den := 4 * Nat.pow 2 1074, closed := m % 2 == 0 }

/-- The decimal `n · 10 ^ e`, as a quotient of naturals, lies in the interval. -/
def Interval.contains (i : Interval) (num den : Nat) : Bool :=
  if i.closed then i.low * den ≤ num * i.den && num * i.den ≤ i.high * den
  else i.low * den < num * i.den && num * i.den < i.high * den

/-- `10 ^ e` as a quotient of naturals. -/
def tenTo : Int → Nat × Nat
  | .ofNat e => (Nat.pow 10 e, 1)
  | .negSucc e => (1, Nat.pow 10 (e + 1))

/-- The largest power of ten that is at most `num / den`, searched downwards from a start. -/
def leadingPower (num den : Nat) : Nat → Int → Int
  | 0, e => e
  | steps + 1, e =>
    let (p, s) := tenTo e
    if p * den ≤ num * s then e else leadingPower num den steps (e - 1)

/-- The point of the grid of step `10 ^ e` that lies in the interval and is nearest to its value. -/
def Interval.gridPoint? (i : Interval) (e : Int) : Option Nat :=
  let (p, s) := tenTo e
  let floor := i.value * s / (i.den * p)
  let below := i.contains (floor * p) s
  let above := i.contains ((floor + 1) * p) s
  let twice := 2 * (i.value * s % (i.den * p))
  if below && above then
    if twice < i.den * p then some floor
    else if twice = i.den * p then some (floor + floor % 2)
    else some (floor + 1)
  else if below then some floor
  else if above then some (floor + 1)
  else none

/-- The decimal without zeros at its end. -/
def dropZeros : Nat → Nat → Int → Scaled
  | 0, n, e => ⟨n, e⟩
  | steps + 1, n, e => if n % 10 = 0 then dropZeros steps (n / 10) (e + 1) else ⟨n, e⟩

/-- The first of the grids from `digits` digits on that has a point in the interval. -/
def Interval.firstPoint (i : Interval) (lead : Int) : Nat → Nat → Scaled
  | 0, _ => ⟨0, 0⟩
  | steps + 1, digits =>
    let e := lead - digits + 1
    match i.gridPoint? e with
    | some n => dropZeros 18 n e
    | none => i.firstPoint lead steps (digits + 1)

/-- The shortest decimal that reads back as a double other than zero. -/
def shortest (x : Double) : Scaled :=
  let (m, q) := x.decode
  let i := Interval.around m q
  i.firstPoint (leadingPower i.value i.den 640 309) 17 1

/-- How the digits of a number are laid out. -/
structure Layout where
  /-- positional for a leading power of ten from here … -/
  positionalFrom : Int
  /-- … to below here, exponent form otherwise -/
  positionalBelow : Int
  /-- what a whole number in positional form ends with -/
  wholeEnding : String
  /-- the sign of an exponent that is not negative -/
  exponentSign : String

/-- Numbers from `1e-5` to below `1e16` are positional and always have a point; a positive
exponent has a plus sign. -/
def standard : Layout := ⟨-5, 16, ".0", "+"⟩

/-- The digits with a point after the first `n` of them. -/
def pointAfter (n : Nat) (digits : List Char) : List Char :=
  if digits.length ≤ n then digits else digits.take n ++ '.' :: digits.drop n

/-- The text of a decimal that is not zero. -/
def Layout.write (l : Layout) (d : Scaled) : List Char :=
  let digits := (toString d.digits).toList
  let lead := d.exponent + digits.length - 1
  if l.positionalFrom ≤ lead ∧ lead < l.positionalBelow then
    if 0 ≤ d.exponent then
      digits ++ List.replicate d.exponent.toNat '0' ++ l.wholeEnding.toList
    else if 0 ≤ lead then pointAfter (lead.toNat + 1) digits
    else '0' :: '.' :: List.replicate (-1 - lead).toNat '0' ++ digits
  else
    pointAfter 1 digits ++ 'e' ::
      (if 0 ≤ lead then l.exponentSign.toList else []) ++ (toString lead).toList

/-- The text of a finite double. -/
def write (x : Double) : List Char :=
  let sign := if x.isNegative then ['-'] else []
  if x.isZero then sign ++ ('0' :: standard.wholeEnding.toList)
  else sign ++ standard.write (shortest x)

end Decimal
end HtmlCompose
