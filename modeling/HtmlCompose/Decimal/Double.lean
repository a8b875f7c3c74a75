/-
# Finite doubles

A binary64 number is kept as its 64 bits. A finite one has a sign and the
magnitude `m · 2 ^ (q - 1074)`:

| exponent field `b` | significand `m` | power `q` |
| --- | --- | --- |
| `0` | the 52 fraction bits | `0` |
| `1` to `2046` | `2 ^ 52` plus the fraction bits | `b - 1` |

so that the bits of a magnitude are `q · 2 ^ 52 + m`. Rounding is exact: a
positive quotient of two naturals goes to the nearest double, a tie to the even
significand.
-/

namespace HtmlCompose

/-- A binary64 number, by its bits. -/
structure Double where
  /-- sign, exponent field and fraction, from the highest bit down -/
  bits : UInt64
deriving DecidableEq, Repr, Inhabited

namespace Double

/-- The bits of positive infinity: the first pattern above all finite magnitudes. -/
def infinityBits : Nat := 0x7FF0000000000000

/-- The bits without the sign. -/
def magnitudeBits (x : Double) : Nat :=
  x.bits.toNat % Nat.pow 2 63

/-- The sign bit is set. -/
def isNegative (x : Double) : Bool :=
  Nat.pow 2 63 ≤ x.bits.toNat

/-- Positive or negative zero. -/
def isZero (x : Double) : Bool :=
  x.magnitudeBits == 0

/-- The exponent field is not that of zero and the smallest magnitudes. -/
def isNormal (x : Double) : Bool :=
  Nat.pow 2 52 ≤ x.magnitudeBits

/-- The significand and the power `q` of the magnitude `m · 2 ^ (q - 1074)`. -/
def decode (x : Double) : Nat × Nat :=
  let field := x.magnitudeBits / Nat.pow 2 52
  let fraction := x.magnitudeBits % Nat.pow 2 52
  if field = 0 then (fraction, 0) else (Nat.pow 2 52 + fraction, field - 1)

/-- The magnitude as a quotient of naturals. -/
def ratio (x : Double) : Nat × Nat :=
  let (m, q) := x.decode
  if 1074 ≤ q then (m * Nat.pow 2 (q - 1074), 1) else (m, Nat.pow 2 (1074 - q))

/-- The double of a magnitude's bits and a sign. -/
def ofBits (negative : Bool) (magnitude : Nat) : Double :=
  ⟨UInt64.ofNat (if negative then Nat.pow 2 63 + magnitude else magnitude)⟩

/-- The nearest natural to `num / den`, a tie to the even one. -/
def roundHalfEven (num den : Nat) : Nat :=
  let floor := num / den
  let twice := 2 * (num % den)
  if twice < den then floor
  else if twice = den then floor + floor % 2
  else floor + 1

/-- The power `q` at which the significand of `num / den` has 53 bits, or `0` below that. -/
def powerOf (num den : Nat) : Nat :=
  let scaled (q : Nat) : Nat := num * Nat.pow 2 1074 / (den * Nat.pow 2 q)
  let guess := (num * Nat.pow 2 1074).log2 - den.log2 - 52
  if scaled guess < Nat.pow 2 52 then guess - 1 else guess

/-- The magnitude bits of the double nearest to `num / den`; those of infinity and beyond
are out of range. -/
def nearestBits (num den : Nat) : Nat :=
  let q := powerOf num den
  q * Nat.pow 2 52 + roundHalfEven (num * Nat.pow 2 1074) (den * Nat.pow 2 q)

/-- The double nearest to a signed quotient, or nothing when it is out of range. -/
def nearest? (negative : Bool) (num den : Nat) : Option Double :=
  let magnitude := nearestBits num den
  if magnitude < infinityBits then some (ofBits negative magnitude) else none

/-- The double nearest to `digits · 10 ^ exponent`, or nothing when it is out of range. -/
def ofDecimal? (negative : Bool) (digits : Nat) (exponent : Int) : Option Double :=
  match exponent with
  | .ofNat e => nearest? negative (digits * Nat.pow 10 e) 1
  | .negSucc e => nearest? negative digits (Nat.pow 10 (e + 1))

/-- Compares two doubles as numbers; the two zeros are equal. -/
def compare (x y : Double) : Ordering :=
  let signed (z : Double) : Int := if z.isNegative then -(z.magnitudeBits : Int) else z.magnitudeBits
  Ord.compare (signed x) (signed y)

end Double
end HtmlCompose
