/-
# Faults shown in their source

A report names the fault, where it begins, and shows the marked lines with a hint:

```text
Error: Unterminated comment
   ╭─[card/template.html:1:4]
   │
 1 │ <p><!-- open
   │    ────┬────
   │        ╰────── this comment is never closed with '-->'
───╯
```

A mark over several lines shows its first and its last line, with a bar at the left
that leads from one to the other:

```text
 2 │ ╭─▶ b<script>c
   ┆ ┆
 4 │ ├─▶ d
   │ │
   │ ╰────── expected a matching '</script>'
```

A span is in bytes, but the report reads it as character positions. In a source
beyond ASCII the mark is therefore shifted to the right; what of it lies behind the
last character is not shown, and a span that ends further behind gives the first
line of the report alone.
-/
import HtmlCompose.Markup.Error
import HtmlCompose.Text.Blank

namespace HtmlCompose
namespace Markup
namespace Report

/-! ### Lines of a source -/

/-- A character that ends a line. -/
def endsLine (c : Char) : Bool :=
  let n := c.toNat
  (0x0A ≤ n && n ≤ 0x0D) || n == 0x85 || n == 0x2028 || n == 0x2029

/-- The lines of a source, each with its end; a carriage return and a line feed are one end. -/
def cutLines : List Char → List (List Char)
  | [] => []
  | '\r' :: '\n' :: rest => ['\r', '\n'] :: cutLines rest
  | c :: rest =>
    if endsLine c then [c] :: cutLines rest
    else
      match cutLines rest with
      | [] => [[c]]
      | line :: lines => (c :: line) :: lines

/-- A line of a source. -/
structure Line where
  /-- the number of the line, from `0` -/
  index : Nat
  /-- the position of its first character -/
  start : Nat
  chars : List Char
deriving Repr

/-- The position behind the line. -/
def Line.stop (l : Line) : Nat := l.start + l.chars.length

/-- A position lies in the line. -/
def Line.holds (l : Line) (position : Nat) : Bool := l.start ≤ position && position < l.stop

/-- What the line shows: its text without blanks at the end. -/
def Line.text (l : Line) : List Char := Text.trimEnd Text.isBlank l.chars

/-- Lines with their numbers and positions, from given ones on. -/
def numbered (index start : Nat) : List (List Char) → List Line
  | [] => []
  | chars :: rest => ⟨index, start, chars⟩ :: numbered (index + 1) (start + chars.length) rest

/-- The lines of a source with their numbers and positions. -/
def lines (s : List Char) : List Line := numbered 0 0 (cutLines s)

/-- The line of a position; the end of the source counts to the last line. -/
def lineAt? (s : List Char) (position : Nat) : Option Line :=
  if position ≤ s.length then (lines s).reverse.find? (·.start ≤ position) else none

/-! ### Columns -/

/-- The number of columns that a character takes at a place in its line. -/
def width (place : Nat) (c : Char) : Nat :=
  if c = '\t' then (place / 4 + 1) * 4 - place else 1

/-- A character as shown at a place in its line. -/
def shown (place : Nat) (c : Char) : List Char :=
  if c = '\t' then List.replicate (width place c) ' '
  else if Text.isBlank c then [' '] else [c]

/-- The text of a line as shown. -/
def Line.shown (l : Line) : List Char :=
  (l.text.mapIdx Report.shown).flatten

/-- A row below a line: at each place of the line, and as many behind it as needed, a character for
the first column and one for the other columns. -/
def Line.row (l : Line) (places : Nat) (mark : Nat → Char × Char) : List Char :=
  ((List.range places).map fun i =>
    let (first, others) := mark i
    match (l.text[i]?).elim 1 (width i) with
    | 0 => []
    | n + 1 => first :: List.replicate n others).flatten

/-! ### Layout -/

/-- A number of blanks. -/
def blanks (n : Nat) : List Char := List.replicate n ' '

/-- The margin of a row without a line number. -/
def margin (digits : Nat) (bar : Char) : List Char := blanks (digits + 2) ++ [bar, ' ']

/-- The margin of a row with a line. -/
def lineMargin (digits : Nat) (l : Line) : List Char :=
  let number := (toString (l.index + 1)).toList
  ' ' :: blanks (digits - number.length) ++ number ++ [' ', '│', ' ']

/-- The rows of a mark within one line, with its hint. -/
def inlineRows (digits : Nat) (hint : List Char) (start stop : Nat) (l : Line) :
    List (List Char) :=
  let first := start - l.start
  let behind := stop - l.start
  let middle := (start + stop) / 2 - l.start
  let underline (i : Nat) : Char × Char :=
    if i = middle then ('┬', '─') else if first ≤ i ∧ i < behind then ('─', '─') else (' ', ' ')
  let arrow (i : Nat) : Char × Char :=
    if i < middle then (' ', ' ') else if i = middle then ('╰', '─') else ('─', '─')
  if stop ≤ l.stop then
    [lineMargin digits l ++ l.shown,
      margin digits '│' ++ l.row (behind + 2) underline,
      margin digits '│' ++ l.row (behind + 2) arrow ++ ' ' :: hint]
  else [margin digits '│']

/-- The rows of a mark over several lines, with its hint; a row stands for any number of lines
between. -/
def spreadRows (digits : Nat) (hint : List Char) (start last : Nat) (skipping : Bool) :
    List Line → List (List Char)
  | [] => []
  | l :: rest =>
    let places := l.chars.length + 2
    if l.holds start then
      (lineMargin digits l ++ ['╭', '─', '▶', ' '] ++ l.shown) ::
        spreadRows digits hint start last false rest
    else if l.holds last then
      (lineMargin digits l ++ ['├', '─', '▶', ' '] ++ l.shown) ::
        (margin digits '│' ++ ['│', ' ', ' ', ' '] ++ l.row places fun _ => (' ', ' ')) ::
        (margin digits '│' ++ ['╰', '─', '─', '─'] ++ (l.row places fun _ => ('─', '─')) ++
          ' ' :: hint) ::
        spreadRows digits hint start last false rest
    else if skipping then spreadRows digits hint start last true rest
    else
      (margin digits '┆' ++ ['┆', ' ', ' ', ' ']) :: spreadRows digits hint start last true rest

/-- The rows below the first line of a report. -/
def rows (s name hint : List Char) (span : Span) : List (List Char) :=
  match lineAt? s span.start, lineAt? s (span.stop - 1) with
  | some first, some last =>
    let digits := (toString (last.index + 1)).toList.length
    let place := (toString (first.index + 1)).toList ++ ':' ::
      (toString (span.start - first.start + 1)).toList
    let marked := (lines s).filter fun l => first.index ≤ l.index && l.index ≤ last.index
    let body :=
      if first.index = last.index then marked.flatMap (inlineRows digits hint span.start span.stop)
      else spreadRows digits hint span.start (span.stop - 1) false marked
    [blanks (digits + 2) ++ ['╭', '─', '['] ++ name ++ ':' :: place ++ [']'],
      blanks (digits + 2) ++ ['│']] ++ body ++ [List.replicate (digits + 2) '─' ++ ['╯']]
  | _, _ => []

end Report

namespace Fault

/-- The fault in a few words. -/
def title : Fault → String
  | unterminatedComment _ => "Unterminated comment"
  | unterminatedRawText tag _ => "Unterminated <" ++ tag ++ "> element"

/-- What is missing. -/
def hint : Fault → String
  | unterminatedComment _ => "this comment is never closed with '-->'"
  | unterminatedRawText tag _ => "expected a matching '</" ++ tag ++ ">'"

/-- The fault with the marked lines of its source. -/
def report (f : Fault) (source fileName : String) : String :=
  let heading := ("Error: " ++ f.title).toList
  let rows := Report.rows source.toList fileName.toList f.hint.toList f.span
  String.ofList ((heading :: rows).flatMap (· ++ ['\n']))

end Fault
end Markup
end HtmlCompose
