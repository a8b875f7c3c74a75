/-
# Dates and times

| form | example |
| --- | --- |
| date | `1979-05-27` |
| time | `07:32:00.5` |
| date and time, with `T`, `t` or a space between | `1979-05-27 07:32:00` |
| the same with an offset | `1979-05-27T07:32:00Z`, `1979-05-27T07:32:00+01:00` |

The standard form has `T` and `Z`, and a fraction of at most nine digits without
zeros at its end. A minute may have a sixty-first second.
-/
import HtmlCompose.Text.Blank
import HtmlCompose.Text.Search

namespace HtmlCompose
namespace Toml
namespace Datetime

/-- A number of exactly so many digits, within bounds, with its digits and the rest. -/
def digits? (count low high : Nat) (s : List Char) : Option (Nat × List Char × List Char) := do
  let text := s.take count
  if text.length < count ∨ !text.all Char.isDigit then none
  else
    let n ← Text.readNat 10 text
    if low ≤ n ∧ n ≤ high then some (n, text, s.drop count) else none

/-- The days of a month. -/
def daysIn (year month : Nat) : Nat :=
  if month = 2 then
    if year % 4 = 0 ∧ (year % 100 ≠ 0 ∨ year % 400 = 0) then 29 else 28
  else if month = 4 ∨ month = 6 ∨ month = 9 ∨ month = 11 then 30
  else 31

/-- A date and the rest. -/
def date? (s : List Char) : Option (List Char × List Char) := do
  let (year, yearText, s) ← digits? 4 0 9999 s
  let s ← Text.after? ['-'] s
  let (month, monthText, s) ← digits? 2 1 12 s
  let s ← Text.after? ['-'] s
  let (_, dayText, s) ← digits? 2 1 (daysIn year month) s
  some (yearText ++ '-' :: monthText ++ '-' :: dayText, s)

/-- A fraction of a second in standard form and the rest. -/
def fraction? (s : List Char) : Option (List Char × List Char) :=
  match s with
  | '.' :: rest =>
    let digits := rest.takeWhile Char.isDigit
    if digits.isEmpty then none
    else
      let kept := Text.trimEnd (· == '0') (digits.take 9)
      some (if kept.isEmpty then [] else '.' :: kept, rest.dropWhile Char.isDigit)
  | _ => some ([], s)

/-- A time of day and the rest. -/
def time? (s : List Char) : Option (List Char × List Char) := do
  let (_, hour, s) ← digits? 2 0 23 s
  let s ← Text.after? [':'] s
  let (_, minute, s) ← digits? 2 0 59 s
  let s ← Text.after? [':'] s
  let (_, second, s) ← digits? 2 0 60 s
  let (fraction, s) ← fraction? s
  some (hour ++ ':' :: minute ++ ':' :: second ++ fraction, s)

/-- An offset, if there is one, and the rest. -/
def offset? (s : List Char) : Option (List Char × List Char) :=
  match s with
  | 'Z' :: rest | 'z' :: rest => some (['Z'], rest)
  | '+' :: rest | '-' :: rest => do
    let sign := s.take 1
    let (h, hour, rest) ← digits? 2 0 23 rest
    let rest ← Text.after? [':'] rest
    let (m, minute, rest) ← digits? 2 0 59 rest
    some ((if h = 0 ∧ m = 0 then ['+'] else sign) ++ hour ++ ':' :: minute, rest)
  | _ => some ([], s)

/-- Characters between a date and a time. -/
def isDelimiter (c : Char) : Bool := c == 'T' || c == 't' || c == ' '

/-- What follows a date: a time with an offset, or nothing of it. -/
def timeAfter (s : List Char) : Option (List Char × List Char) :=
  match s with
  | c :: rest =>
    if isDelimiter c ∧ (digits? 2 0 99 rest).isSome then do
      let (time, rest) ← time? rest
      let (offset, rest) ← offset? rest
      some ('T' :: time ++ offset, rest)
    else some ([], s)
  | [] => some ([], [])

/-- The text starts like a date or a time. -/
def starts (s : List Char) : Bool :=
  ((digits? 4 0 9999 s).bind fun (_, _, rest) => Text.after? ['-'] rest).isSome ||
    ((digits? 2 0 99 s).bind fun (_, _, rest) => Text.after? [':'] rest).isSome

/-- A date, a time or both, in standard form, and the rest. -/
def read? (s : List Char) : Option (List Char × List Char) :=
  match date? s with
  | some (date, rest) => (timeAfter rest).map fun (time, rest) => (date ++ time, rest)
  | none => time? s

end Datetime
end Toml
end HtmlCompose
