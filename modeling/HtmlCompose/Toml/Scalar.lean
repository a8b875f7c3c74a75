/-
# Strings and numbers of TOML

| string | delimiter | holds |
| --- | --- | --- |
| basic | `"` | one line, with escapes |
| literal | `'` | one line as it is |
| multi-line | three of either | lines; a line end just after the start is dropped |

A backslash at the end of a line of a basic multi-line string drops all blanks up
to the next character. Up to two quotes may stand just before the closing three.
Line ends are kept as line feeds.

An integer has 64 bits; it may be hexadecimal, octal or binary. A float has a
fraction or an exponent and is read to the nearest double. Underscores may stand
between digits.
-/
import HtmlCompose.Decimal.Double
import HtmlCompose.Text.Search
import HtmlCompose.Toml.Value

namespace HtmlCompose
namespace Toml
namespace Scalar

/-- A character that may stand in a text without an escape. -/
def isPlain (c : Char) : Bool :=
  c == '\t' || (0x20 ≤ c.toNat && c.toNat != 0x7F)

/-- The character of a code point given in hexadecimal digits. -/
def codePoint? (digits : List Char) : Option Char := do
  if !digits.all (fun c => (Text.digitOf 16 c).isSome) then none
  else
    let n ← Text.readNat 16 digits
    if n.isValidChar then some (Char.ofNat n) else none

/-- The character of an escape and what follows it, after the backslash. -/
def escape? : List Char → Option (Char × List Char)
  | 'b' :: rest => some ('\x08', rest)
  | 't' :: rest => some ('\t', rest)
  | 'n' :: rest => some ('\n', rest)
  | 'f' :: rest => some ('\x0c', rest)
  | 'r' :: rest => some ('\r', rest)
  | '"' :: rest => some ('"', rest)
  | '\\' :: rest => some ('\\', rest)
  | 'u' :: rest =>
    if rest.length < 4 then none else (codePoint? (rest.take 4)).map fun c => (c, rest.drop 4)
  | 'U' :: rest =>
    if rest.length < 8 then none else (codePoint? (rest.take 8)).map fun c => (c, rest.drop 8)
  | _ => none

/-- The text of a basic string after its quote, and the rest. The first argument bounds the
characters. -/
def basic : Nat → List Char → Option (List Char × List Char)
  | 0, _ => none
  | _ + 1, [] => none
  | n + 1, c :: rest =>
    if c = '"' then some ([], rest)
    else if c = '\\' then do
      let (c, rest) ← escape? rest
      let (cs, rest) ← basic n rest
      some (c :: cs, rest)
    else if isPlain c then do
      let (cs, rest) ← basic n rest
      some (c :: cs, rest)
    else none

/-- The text of a literal string after its apostrophe, and the rest. -/
def literal : List Char → Option (List Char × List Char)
  | [] => none
  | c :: rest =>
    if c = '\'' then some ([], rest)
    else if isPlain c then do
      let (cs, rest) ← literal rest
      some (c :: cs, rest)
    else none

/-- The text without a line end at its start. -/
def dropLineEnd : List Char → List Char
  | '\n' :: rest => rest
  | '\r' :: '\n' :: rest => rest
  | s => s

/-- The text from the first character on that is neither a blank nor a line end. -/
def dropGaps : List Char → List Char
  | ' ' :: rest | '\t' :: rest | '\n' :: rest => dropGaps rest
  | '\r' :: '\n' :: rest => dropGaps rest
  | s => s

/-- A backslash here ends its line: only blanks follow it there. -/
def endsLine (s : List Char) : Bool :=
  match s.dropWhile (fun c => c == ' ' || c == '\t') with
  | '\n' :: _ | '\r' :: '\n' :: _ => true
  | _ => false

/-- The quotes that belong to a text just before its three closing ones, and the rest. -/
def closing? (q : Char) : List Char → Option (List Char × List Char)
  | a :: b :: c :: d :: e :: rest =>
    if a = q ∧ b = q ∧ c = q then
      if d = q ∧ e = q then some ([q, q], rest)
      else if d = q then some ([q], e :: rest)
      else some ([], d :: e :: rest)
    else none
  | [a, b, c, d] =>
    if a = q ∧ b = q ∧ c = q then if d = q then some ([q], []) else some ([], [d]) else none
  | [a, b, c] => if a = q ∧ b = q ∧ c = q then some ([], []) else none
  | _ => none

/-- The text of a multi-line basic string after its quotes, and the rest. -/
def multiBasic : Nat → List Char → Option (List Char × List Char)
  | 0, _ => none
  | _ + 1, [] => none
  | n + 1, c :: rest =>
    match closing? '"' (c :: rest) with
    | some found => some found
    | none =>
      if c = '\\' then
        if endsLine rest then
          multiBasic n (dropGaps rest)
        else do
          let (c, rest) ← escape? rest
          let (cs, rest) ← multiBasic n rest
          some (c :: cs, rest)
      else if c = '\n' ∨ isPlain c then do
        let (cs, rest) ← multiBasic n rest
        some (c :: cs, rest)
      else
        match c, rest with
        | '\r', '\n' :: rest => do
          let (cs, rest) ← multiBasic n rest
          some ('\n' :: cs, rest)
        | _, _ => none

/-- The text of a multi-line literal string after its apostrophes, and the rest. -/
def multiLiteral : Nat → List Char → Option (List Char × List Char)
  | 0, _ => none
  | _ + 1, [] => none
  | n + 1, c :: rest =>
    match closing? '\'' (c :: rest) with
    | some found => some found
    | none =>
      if c = '\n' ∨ isPlain c then do
        let (cs, rest) ← multiLiteral n rest
        some (c :: cs, rest)
      else
        match c, rest with
        | '\r', '\n' :: rest => do
          let (cs, rest) ← multiLiteral n rest
          some ('\n' :: cs, rest)
        | _, _ => none

/-- A string on one line, and the rest. -/
def line? (s : List Char) : Option (List Char × List Char) :=
  match s with
  | '"' :: rest => basic (rest.length + 1) rest
  | '\'' :: rest => literal rest
  | _ => none

/-- A string of any form, and the rest. -/
def string? (s : List Char) : Option (List Char × List Char) :=
  match s with
  | '"' :: '"' :: '"' :: rest => multiBasic (rest.length + 1) (dropLineEnd rest)
  | '\'' :: '\'' :: '\'' :: rest => multiLiteral (rest.length + 1) (dropLineEnd rest)
  | _ => line? s

/-- Digits with single underscores between them: the digits and the rest. -/
def digitRun (base : Nat) : List Char → Option (List Char × List Char)
  | [] => none
  | c :: rest =>
    if (Text.digitOf base c).isNone then none
    else
      match rest with
      | [] => some ([c], [])
      | '_' :: more => (digitRun base more).map fun (ds, rest) => (c :: ds, rest)
      | d :: more =>
        if (Text.digitOf base d).isSome then
          (digitRun base (d :: more)).map fun (ds, rest) => (c :: ds, rest)
        else some ([c], d :: more)

/-- A sign, if there is one: whether it is minus, and the rest. -/
def sign : List Char → Bool × List Char
  | '+' :: rest => (false, rest)
  | '-' :: rest => (true, rest)
  | s => (false, s)

/-- Decimal digits without a zero in front of others, and the rest. -/
def wholeDigits : List Char → Option (List Char × List Char)
  | '0' :: rest => some (['0'], rest)
  | s => digitRun 10 s

/-- An integer in the range of 64 bits. -/
def integerOf (negative : Bool) (n : Nat) : Option Value :=
  if negative then if n ≤ Nat.pow 2 63 then some (.integer (-n)) else none
  else if n < Nat.pow 2 63 then some (.integer n) else none

/-- An integer with a base in front, and the rest. -/
def based? (base : Nat) (s : List Char) : Option (Value × List Char) := do
  let (digits, rest) ← digitRun base s
  let n ← Text.readNat base digits
  let v ← integerOf false n
  some (v, rest)

/-- The exponent of a float after its letter, and the rest. -/
def exponent? (s : List Char) : Option (Int × List Char) := do
  let (negative, s) := sign s
  let (digits, rest) ← digitRun 10 s
  let n ← Text.readNat 10 digits
  some (if negative then -n else n, rest)

/-- The nearest double to digits and an exponent: too large a positive number is refused, too
large a negative one has no double. -/
def floatOf (negative : Bool) (digits : List Char) (exponent : Int) : Option Value := do
  let n ← Text.readNat 10 digits
  let magnitude := exponent + (Nat.toDigits 10 n).length
  if n = 0 ∨ magnitude < -400 then some (.float (some (Double.ofBits negative 0)))
  else if 400 < magnitude then if negative then some (.float none) else none
  else
    match Double.ofDecimal? negative n exponent with
    | some x => some (.float (some x))
    | none => if negative then some (.float none) else none

/-- A decimal number after its sign, and the rest. -/
def decimal? (negative : Bool) (s : List Char) : Option (Value × List Char) := do
  let (whole, rest) ← wholeDigits s
  match rest with
  | '.' :: rest =>
    let (fraction, rest) ← digitRun 10 rest
    let (e, rest) ←
      match rest with
      | 'e' :: rest | 'E' :: rest => exponent? rest
      | _ => some (0, rest)
    let v ← floatOf negative (whole ++ fraction) (e - fraction.length)
    some (v, rest)
  | 'e' :: rest | 'E' :: rest =>
    let (e, rest) ← exponent? rest
    let v ← floatOf negative whole e
    some (v, rest)
  | _ =>
    let n ← Text.readNat 10 whole
    let v ← integerOf negative n
    some (v, rest)

/-- A number, and the rest. -/
def number? (s : List Char) : Option (Value × List Char) :=
  match s with
  | '0' :: 'x' :: rest => based? 16 rest
  | '0' :: 'o' :: rest => based? 8 rest
  | '0' :: 'b' :: rest => based? 2 rest
  | _ =>
    match sign s with
    | (_, 'i' :: 'n' :: 'f' :: rest) | (_, 'n' :: 'a' :: 'n' :: rest) => some (.float none, rest)
    | (negative, rest) => decimal? negative rest

end Scalar
end Toml
end HtmlCompose
