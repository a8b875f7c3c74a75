/-
# Reading JSON

Values are read from the characters of a text; what is left comes back beside
them. At most 127 containers may be nested, numbers have to lie in the range of
doubles, and escapes have to denote characters.

A value that nobody asked for is *skipped*: it has to follow the grammar, but
its nesting, the size of its numbers and unpaired surrogates do not matter.

A number that is not whole keeps as many leading digits as fit 64 bits; they are
rounded to a double, which is then multiplied or divided once by the double
nearest to the power of ten that is left.
-/
import HtmlCompose.Data.Json
import HtmlCompose.Text.Search

namespace HtmlCompose
namespace Json
namespace Reader

/-- Containers that may be nested in one another. -/
def maxNesting : Nat := 127

/-- Blanks between the parts of a text. -/
def isGap (c : Char) : Bool :=
  c == ' ' || c == '\n' || c == '\t' || c == '\r'

/-- The text from the next part on. -/
def skipGaps (s : List Char) : List Char :=
  s.dropWhile isGap

/-- The value of four hexadecimal digits and what follows them. -/
def hex4 : List Char → Option (Nat × List Char)
  | a :: b :: c :: d :: rest => do
    let a ← Text.digitOf 16 a
    let b ← Text.digitOf 16 b
    let c ← Text.digitOf 16 c
    let d ← Text.digitOf 16 d
    some (((a * 16 + b) * 16 + c) * 16 + d, rest)
  | _ => none

/-- The character of a one-letter escape. -/
def escaped : Char → Option Char
  | '"' => some '"'
  | '\\' => some '\\'
  | '/' => some '/'
  | 'b' => some '\x08'
  | 'f' => some '\x0c'
  | 'n' => some '\n'
  | 'r' => some '\r'
  | 't' => some '\t'
  | _ => none

/-- The low half of a surrogate pair written as an escape. -/
def lowHalf : List Char → Option (Nat × List Char)
  | '\\' :: 'u' :: rest => (hex4 rest).filter fun (n, _) => 0xDC00 ≤ n && n < 0xE000
  | _ => none

/-- The character of a numeric escape, after its `u`. In a skipped text any four digits do. -/
def numericEscape (kept : Bool) (s : List Char) : Option (Char × List Char) := do
  let (n, rest) ← hex4 s
  if n < 0xD800 || 0xE000 ≤ n || !kept then some (Char.ofNat n, rest)
  else if n < 0xDC00 then
    let (low, rest) ← lowHalf rest
    some (Char.ofNat (0x10000 + (n - 0xD800) * 0x400 + (low - 0xDC00)), rest)
  else none

/-- The characters of a quoted text after its opening quote; the first argument bounds their
number. -/
def stringBody (kept : Bool) : Nat → List Char → Option (List Char × List Char)
  | 0, _ => none
  | _ + 1, [] => none
  | n + 1, c :: rest =>
    if c = '"' then some ([], rest)
    else if c = '\\' then
      match rest with
      | 'u' :: rest => do
        let (c, rest) ← numericEscape kept rest
        let (cs, rest) ← stringBody kept n rest
        some (c :: cs, rest)
      | e :: rest => do
        let c ← escaped e
        let (cs, rest) ← stringBody kept n rest
        some (c :: cs, rest)
      | [] => none
    else if c.toNat < 0x20 then none
    else do
      let (cs, rest) ← stringBody kept n rest
      some (c :: cs, rest)

/-- A quoted text after its opening quote. -/
def string (kept : Bool) (s : List Char) : Option (String × List Char) :=
  (stringBody kept (s.length + 1) s).map fun (cs, rest) => (String.ofList cs, rest)

/-- Leading digits of a number with the power of ten that they are scaled by. -/
structure Significand where
  /-- the digits that were kept, below `2 ^ 64` -/
  value : Nat
  /-- the power of ten of the last kept digit -/
  exponent : Int

/-- Digits before the point: kept as long as they fit, counted afterwards. -/
def wholeDigits : Significand → List Char → Significand
  | s, [] => s
  | s, c :: cs =>
    let next := s.value * 10 + (c.toNat - '0'.toNat)
    if s.exponent = 0 ∧ next < UInt64.size then wholeDigits ⟨next, 0⟩ cs
    else wholeDigits ⟨s.value, s.exponent + 1⟩ cs

/-- Digits after the point: kept as long as they fit, dropped afterwards. -/
def fractionDigits : Significand → List Char → Significand
  | s, [] => s
  | s, c :: cs =>
    let next := s.value * 10 + (c.toNat - '0'.toNat)
    if next < UInt64.size then fractionDigits ⟨next, s.exponent - 1⟩ cs else s

/-- The largest power of ten that is a double. -/
def maxPower : Nat := 308

/-- A double divided by the double nearest to a power of ten. -/
def quotient (x : Double) (exponent : Nat) : Option Double := do
  let power ← Double.ofDecimal? false 1 exponent
  Double.nearest? false (x.ratio.1 * power.ratio.2) (x.ratio.2 * power.ratio.1)

/-- A double divided by a power of ten, in steps of at most the largest one. -/
def divideByTen (x : Double) (exponent : Nat) : Option Double :=
  if exponent ≤ maxPower then quotient x exponent
  else if x.isZero then some x
  else (quotient x maxPower).bind fun y => divideByTen y (exponent - maxPower)
termination_by exponent
decreasing_by
  have : 0 < maxPower := by decide
  omega

/-- A double multiplied by the double nearest to a power of ten. -/
def multiplyByTen (x : Double) (exponent : Nat) : Option Double :=
  if x.isZero then some x
  else if maxPower < exponent then none
  else do
    let power ← Double.ofDecimal? false 1 exponent
    Double.nearest? false (x.ratio.1 * power.ratio.1) (x.ratio.2 * power.ratio.2)

/-- The double of kept digits and a power of ten. -/
def Significand.toDouble? (s : Significand) (negative : Bool) : Option Double := do
  let x ← Double.nearest? false s.value 1
  let scaled ←
    match s.exponent with
    | .ofNat e => multiplyByTen x e
    | .negSucc e => divideByTen x (e + 1)
  some (Double.ofBits negative scaled.magnitudeBits)

/-- A whole number: an integer of 64 bits if it fits, a double otherwise; `-0` is a double. -/
def wholeNumber? (negative : Bool) (digits : List Char) : Option Number :=
  let s := wholeDigits ⟨0, 0⟩ digits
  if s.exponent = 0 ∧ !negative then some (.int s.value)
  else if s.exponent = 0 ∧ 0 < s.value ∧ s.value ≤ Nat.pow 2 63 then some (.int (-s.value))
  else (s.toDouble? negative).map .double

/-- The digits after the letter of an exponent, with their sign. -/
def exponentDigits (s : List Char) : Option (Int × List Char) :=
  let (negative, s) :=
    match s with
    | '+' :: rest => (false, rest)
    | '-' :: rest => (true, rest)
    | _ => (false, s)
  let digits := s.takeWhile Char.isDigit
  (Text.readNat 10 digits).map fun n => (if negative then -n else n, s.dropWhile Char.isDigit)

/-- What follows the digits before the point. -/
def fraction (s : List Char) : Option (List Char × List Char) :=
  match s with
  | '.' :: rest =>
    let digits := rest.takeWhile Char.isDigit
    if digits.isEmpty then none else some (digits, rest.dropWhile Char.isDigit)
  | _ => some ([], s)

/-- What follows the digits after the point. -/
def exponent (s : List Char) : Option (Option Int × List Char) :=
  match s with
  | 'e' :: rest | 'E' :: rest => (exponentDigits rest).map fun (e, rest) => (some e, rest)
  | _ => some (none, s)

/-- A number without its sign; a skipped number may have any size. -/
def unsigned (kept negative : Bool) (s : List Char) : Option (Number × List Char) := do
  let digits := s.takeWhile Char.isDigit
  if digits.isEmpty then none
  else if digits.head? = some '0' ∧ 1 < digits.length then none
  else
    let (fractional, rest) ← fraction (s.dropWhile Char.isDigit)
    let (power, rest) ← exponent rest
    if !kept then some (.int 0, rest)
    else if fractional.isEmpty ∧ power.isNone then
      let n ← wholeNumber? negative digits
      some (n, rest)
    else
      let s := fractionDigits (wholeDigits ⟨0, 0⟩ digits) fractional
      let x ← Significand.toDouble? ⟨s.value, s.exponent + power.getD 0⟩ negative
      some (.double x, rest)

/-- A number. -/
def number (kept : Bool) : List Char → Option (Number × List Char)
  | '-' :: rest => unsigned kept true rest
  | s => unsigned kept false s

mutual
/-- A value. The first number bounds the steps, the second counts the containers that may still
be opened (in a kept value). -/
def value (kept : Bool) : Nat → Nat → List Char → Option (Json × List Char)
  | 0, _, _ => none
  | n + 1, depth, s =>
    match skipGaps s with
    | 'n' :: 'u' :: 'l' :: 'l' :: rest => some (.null, rest)
    | 't' :: 'r' :: 'u' :: 'e' :: rest => some (.bool true, rest)
    | 'f' :: 'a' :: 'l' :: 's' :: 'e' :: rest => some (.bool false, rest)
    | '"' :: rest => (string kept rest).map fun (s, rest) => (.string s, rest)
    | '[' :: rest =>
      if kept ∧ depth = 0 then none
      else
        match skipGaps rest with
        | ']' :: rest => some (.array [], rest)
        | _ => (items kept n (depth - 1) rest).map fun (vs, rest) => (.array vs, rest)
    | '\x7b' :: rest =>
      if kept ∧ depth = 0 then none
      else
        match skipGaps rest with
        | '\x7d' :: rest => some (.object [], rest)
        | _ => (members kept (fun _ => kept) n (depth - 1) rest).map fun (fs, rest) =>
            (.object (Record.ofList fs), rest)
    | s => (number kept s).map fun (n, rest) => (.number n, rest)

/-- The items of a list and its closing bracket. -/
def items (kept : Bool) : Nat → Nat → List Char → Option (List Json × List Char)
  | 0, _, _ => none
  | n + 1, depth, s => do
    let (v, rest) ← value kept n depth s
    match skipGaps rest with
    | ']' :: rest => some ([v], rest)
    | ',' :: rest =>
      let (vs, rest) ← items kept n depth rest
      some (v :: vs, rest)
    | _ => none

/-- The entries of an object and its closing brace, in the order of the text. -/
def members (keptKeys : Bool) (kept : String → Bool) : Nat → Nat → List Char →
    Option (List (String × Json) × List Char)
  | 0, _, _ => none
  | n + 1, depth, s =>
    match skipGaps s with
    | '"' :: rest => do
      let (key, rest) ← string keptKeys rest
      match skipGaps rest with
      | ':' :: rest =>
        let (v, rest) ← value (kept key) n depth rest
        match skipGaps rest with
        | '\x7d' :: rest => some ([(key, v)], rest)
        | ',' :: rest =>
          let (vs, rest) ← members keptKeys kept n depth rest
          some ((key, v) :: vs, rest)
        | _ => none
      | _ => none
    | _ => none
end

/-- Steps that suffice for every text of that length. -/
def steps (s : List Char) : Nat := 2 * s.length + 2

/-- Nothing but gaps is left. -/
def whole {α : Type} : α × List Char → Option α
  | (a, rest) => if (skipGaps rest).isEmpty then some a else none

/-- The entries of a text that is one object, in the order of the text; the values of keys that
are not wanted are skipped. -/
def entries? (wanted : String → Bool) (s : List Char) : Option (List (String × Json)) :=
  match skipGaps s with
  | '\x7b' :: rest =>
    match skipGaps rest with
    | '\x7d' :: rest => whole ([], rest)
    | _ => (members true wanted (steps s) (maxNesting - 1) rest).bind whole
  | _ => none

end Reader

/-- The value of a text that holds one JSON value and nothing else. -/
def read? (s : String) : Option Json :=
  (Reader.value true (Reader.steps s.toList) Reader.maxNesting s.toList).bind Reader.whole

end Json
end HtmlCompose
