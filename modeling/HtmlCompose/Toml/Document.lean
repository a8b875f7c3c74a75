/-
# Reading TOML

A document is a sequence of lines: blank ones, comments, headers and keys with
values. A key is a path of names apart by dots, each bare or a string on one line.
At most 79 lists and inline tables may be nested, and a path has at most 79 names.
-/
import HtmlCompose.Toml.Datetime
import HtmlCompose.Toml.Scalar
import HtmlCompose.Toml.Table

namespace HtmlCompose
namespace Toml
namespace Reader

/-- Lists and inline tables that may be nested, and names that a key may have. -/
def maxNesting : Nat := 79

/-- A blank within a line. -/
def isBlank (c : Char) : Bool := c == ' ' || c == '\t'

/-- The text after the blanks at its start. -/
def skipBlanks (s : List Char) : List Char := s.dropWhile isBlank

/-- The text after a line end, if it starts with one. -/
def lineEnd? : List Char → Option (List Char)
  | '\n' :: rest => some rest
  | '\r' :: '\n' :: rest => some rest
  | _ => none

/-- What follows a comment, from the end of its line on; nothing if there is no comment. -/
def afterComment : List Char → List Char
  | '#' :: rest => rest.dropWhile Scalar.isPlain
  | s => s

/-- What follows the end of a line with blanks and a comment before it. -/
def endOfLine? (s : List Char) : Option (List Char) :=
  match afterComment (skipBlanks s) with
  | [] => some []
  | s => lineEnd? s

/-- The text after blanks, comments and line ends, as they may stand in a list. -/
def skipLines : Nat → List Char → List Char
  | 0, s => s
  | n + 1, s =>
    match skipBlanks s with
    | '#' :: rest =>
      match lineEnd? (afterComment ('#' :: rest)) with
      | some rest => skipLines n rest
      | none => '#' :: rest
    | s =>
      match lineEnd? s with
      | some rest => skipLines n rest
      | none => s

/-- A character of a bare name. -/
def isBare (c : Char) : Bool := c.isAlphanum || c == '-' || c == '_'

/-- One name of a key, and the rest. -/
def name? (s : List Char) : Option (String × List Char) :=
  match s with
  | '"' :: _ | '\'' :: _ => (Scalar.line? s).map fun (cs, rest) => (String.ofList cs, rest)
  | _ =>
    let bare := s.takeWhile isBare
    if bare.isEmpty then none else some (String.ofList bare, s.dropWhile isBare)

/-- The names of a key, with blanks around each, and the rest. -/
def names? : Nat → List Char → Option (List String × List Char)
  | 0, _ => none
  | n + 1, s => do
    let (first, rest) ← name? (skipBlanks s)
    match skipBlanks rest with
    | '.' :: rest =>
      let (more, rest) ← names? n rest
      some (first :: more, rest)
    | rest => some ([first], rest)

/-- A key as the names on its way and its last name, and the rest. -/
def key? (s : List Char) : Option (List String × String × List Char) := do
  let (names, rest) ← names? maxNesting s
  let last ← names.getLast?
  some (names.dropLast, last, rest)

mutual
/-- A value, and the rest. The first number bounds the steps, the second counts the lists and
inline tables that may still be opened. -/
def value : Nat → Nat → List Char → Option (Value × List Char)
  | 0, _, _ => none
  | n + 1, depth, s =>
    match s with
    | '[' :: rest =>
      if depth = 0 then none
      else
        match skipLines rest.length rest with
        | ']' :: rest => some (.array [], rest)
        | rest => (items n (depth - 1) rest).map fun (vs, rest) => (.array vs, rest)
    | '\x7b' :: rest =>
      if depth = 0 then none
      else
        match skipBlanks rest with
        | '\x7d' :: rest => some (.table [], rest)
        | rest => (pairs n (depth - 1) [] rest).map fun (t, rest) =>
            (.table (finishEntries t), rest)
    | 't' :: 'r' :: 'u' :: 'e' :: rest => some (.boolean true, rest)
    | 'f' :: 'a' :: 'l' :: 's' :: 'e' :: rest => some (.boolean false, rest)
    | '"' :: _ | '\'' :: _ =>
      (Scalar.string? s).map fun (cs, rest) => (.string (String.ofList cs), rest)
    | _ =>
      if Datetime.starts s then
        (Datetime.read? s).map fun (cs, rest) => (.datetime (String.ofList cs), rest)
      else Scalar.number? s

/-- The items of a list and its closing bracket; a comma may stand after the last one. -/
def items : Nat → Nat → List Char → Option (List Value × List Char)
  | 0, _, _ => none
  | n + 1, depth, s => do
    let (v, rest) ← value n depth s
    match skipLines rest.length rest with
    | ']' :: rest => some ([v], rest)
    | ',' :: rest =>
      match skipLines rest.length rest with
      | ']' :: rest => some ([v], rest)
      | rest =>
        let (vs, rest) ← items n depth rest
        some (v :: vs, rest)
    | _ => none

/-- The pairs of an inline table and its closing brace. -/
def pairs : Nat → Nat → Entries → List Char → Option (Entries × List Char)
  | 0, _, _, _ => none
  | n + 1, depth, t, s => do
    let (path, key, rest) ← key? s
    let rest ← Text.after? ['='] rest
    let (v, rest) ← value n depth (skipBlanks rest)
    let t ← Entries.assign key v false 0 path t
    match skipBlanks rest with
    | '\x7d' :: rest => some (t, rest)
    | ',' :: rest => pairs n depth t rest
    | _ => none
end

/-- The table of a header: the names of its path, the last one included. -/
structure Header where
  path : List String
  key : String
  /-- in double brackets -/
  isList : Bool

/-- A header after its first bracket, and the rest. -/
def header? (s : List Char) : Option (Header × List Char) :=
  match s with
  | '[' :: rest => do
    let (path, key, rest) ← key? rest
    let rest ← Text.after? [']', ']'] rest
    some (⟨path, key, true⟩, rest)
  | _ => do
    let (path, key, rest) ← key? s
    let rest ← Text.after? [']'] rest
    some (⟨path, key, false⟩, rest)

/-- The lines of a document from a place on, with the tables so far and the path of the last
header. -/
def lines : Nat → List String → Entries → List Char → Option Entries
  | 0, _, _, _ => none
  | n + 1, current, root, s =>
    match skipBlanks s with
    | [] => some root
    | '[' :: rest => do
      let (h, rest) ← header? rest
      let rest ← endOfLine? rest
      let change := if h.isList then Entries.openElement h.key else Entries.openTable h.key
      let root ← Entries.descend change h.path root
      lines n (h.path ++ [h.key]) root rest
    | '#' :: rest => do
      let rest ← endOfLine? ('#' :: rest)
      lines n current root rest
    | '\n' :: rest => lines n current root rest
    | '\r' :: rest => do
      let rest ← Text.after? ['\n'] rest
      lines n current root rest
    | s => do
      let (path, key, rest) ← key? s
      let rest ← Text.after? ['='] rest
      let (v, rest) ← value (2 * s.length + 2) maxNesting (skipBlanks rest)
      let rest ← endOfLine? rest
      let root ← Entries.descend (Entries.assign key v false 0 path) current root
      lines n current root rest

end Reader

/-- The entries of a document; a byte order mark may stand in front. -/
def read? (text : String) : Option (List (String × Value)) :=
  let s := match text.toList with | '\ufeff' :: rest => rest | s => s
  (Reader.lines (s.length + 2) [] [] s).map finishEntries

end Toml
end HtmlCompose
