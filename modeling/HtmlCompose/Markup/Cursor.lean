/-
# Tokens read with a cursor

`Lexeme` cuts a source, given as characters, by a rule of its own for each kind of token.  Here a
cursor goes over the source in bytes.  It moves as far as the longest match of five patterns:

| kind | pattern | then |
| --- | --- | --- |
| comment | `<!--` | goes on behind the first `-->`; its body is what stands between |
| declaration | `<![^-][^>]*>` | |
| closing tag | `</[A-Za-z][^>]*>` | its name is the piece without two bytes in front, one behind |
| opening tag | `<[A-Za-z]([^>"']\|"[^"]*"\|'[^']*')*>` | |
| text | `[^<]+` | |

If no pattern matches, a piece is given up: all that is left when a tag or a declaration has begun,
for then matching has gone on to the end in search of its `>`, and otherwise one byte.  A comment
without an end is given up as well, but only its `<!--`.

The positions are counted, so they could be wrong: behind the end, or inside of a character.  A
cursor that is moved to such a place, or a slice between such places, is no result (`none`), and
so is a source that has not come to its end after a number of steps.
-/
import HtmlCompose.Markup.Error
import HtmlCompose.Markup.Token
import HtmlCompose.Text.Pattern
import HtmlCompose.Text.Slice

namespace HtmlCompose
namespace Markup

open Text (Pattern)

namespace Lexeme

/-- The kinds of tokens. -/
inductive Kind where
  | comment
  | doctype
  | closeTag
  | openTag
  | text
deriving DecidableEq, Repr

namespace Kind

/-- Anything between two quotes. -/
def quoted (quote : Char) : Pattern := .all [.char quote, .star (.noneOf [quote]), .char quote]

/-- What an opening tag is made of. -/
def tagItem : Pattern := .alt (.noneOf ['>', '"', '\'']) (.alt (quoted '"') (quoted '\''))

/-- What a token of the kind starts with, and is all of it unless it is a comment. -/
def pattern : Kind → Pattern
  | comment => .all [.char '<', .char '!', .char '-', .char '-']
  | doctype => .all [.char '<', .char '!', .noneOf ['-'], .star (.noneOf ['>']), .char '>']
  | closeTag => .all [.char '<', .char '/', .one Char.isAlpha, .star (.noneOf ['>']), .char '>']
  | openTag => .all [.char '<', .one Char.isAlpha, .star tagItem, .char '>']
  | text => .all [.noneOf ['<'], .star (.noneOf ['<'])]

/-- The patterns that are matched at once. -/
def patterns : List (Kind × Pattern) :=
  [comment, doctype, closeTag, openTag, text].map fun kind => (kind, kind.pattern)

/-- The kind with the longest match at the start of a text, with the match and the rest. -/
def recognise? (s : List Char) : Option (Kind × List Char × List Char) :=
  Pattern.longestOf? s patterns

end Kind

/-- A declaration or a tag has begun, which goes on to its `>`. -/
def begins : List Char → Bool
  | '<' :: '!' :: c :: _ => c != '-'
  | '<' :: '/' :: c :: _ => c.isAlpha
  | '<' :: c :: _ => c.isAlpha
  | _ => false

/-- The number of bytes that are given up if no pattern matches. -/
def givenUp (s : List Char) : Nat := if begins s then Text.byteLength s else 1

end Lexeme

/-- A piece of a source by its place, with its token unless it has been given up. -/
structure Piece where
  token : Option Token
  span : Span
deriving DecidableEq, Repr

/-- The token of a piece, if it has one, with the place. -/
def Piece.positioned? (p : Piece) : Option (Token × Nat × Nat) :=
  p.token.map fun t => (t, p.span.start, p.span.stop)

/-- A piece other than text: one that has been given up, or a tag, a comment or a declaration. -/
def Piece.isMarkup (p : Piece) : Bool :=
  match p.token with
  | some (.text _) => false
  | _ => true

/-- A place in a source, and the piece that ends there. -/
structure Cursor where
  source : List Char
  /-- where the piece starts -/
  start : Nat := 0
  /-- where the piece ends, and the next one starts -/
  stop : Nat := 0
deriving DecidableEq, Repr

namespace Cursor

/-- A cursor at the start of a source. -/
def ofSource (source : String) : Cursor := { source := source.toList }

/-- What stands behind the piece. -/
def ahead? (c : Cursor) : Option (List Char) :=
  (Text.splitBytes? c.stop c.source).map fun (_, rest) => rest

/-- The characters of the piece. -/
def slice? (c : Cursor) : Option (List Char) := Text.slice? c.start c.stop c.source

/-- The piece with a number of bytes more. -/
def bump? (c : Cursor) (n : Nat) : Option Cursor := do
  let c := { c with stop := c.stop + n }
  let _ ← c.ahead?
  return c

/-- Goes on from the start of a comment to behind its end, if it has one. -/
def comment? (c : Cursor) : Option (Option Token × Cursor) := do
  let rest ← c.ahead?
  match Text.find? ['-', '-', '>'] rest with
  | none => return (none, c)
  | some n =>
    let body ← Text.slice? 0 n rest
    return (some (.comment (String.ofList body)), ← c.bump? (n + 3))

/-- The token of a piece that the pattern of a kind has matched, and where it ends. -/
def token? (c : Cursor) : Lexeme.Kind → Option (Option Token × Cursor)
  | .comment => c.comment?
  | .doctype => do return (some (.doctype (String.ofList (← c.slice?))), c)
  | .closeTag => do
    let s ← c.slice?
    let name ← Text.slice? 2 (Text.byteLength s - 1) s
    return (some (.closeTag (String.ofList (Text.trim name))), c)
  | .openTag => do return (some (.openTag (String.ofList (← c.slice?))), c)
  | .text => do return (some (.text (String.ofList (← c.slice?))), c)

/-- Goes on from the end of a piece over the next one, with its token. -/
def over? (c : Cursor) (rest : List Char) : Option (Option Token × Cursor) :=
  match Lexeme.Kind.recognise? rest with
  | some (kind, matched, _) => do (← c.bump? (Text.byteLength matched)).token? kind
  | none => do return (none, ← c.bump? (Lexeme.givenUp rest))

/-- Reads the next piece, if the source has not come to its end. -/
def next? (c : Cursor) : Option (Option Piece × Cursor) := do
  let rest ← c.ahead?
  if rest.isEmpty then return (none, c)
  let (token, c) ← { c with start := c.stop }.over? rest
  return (some ⟨token, ⟨c.start, c.stop⟩⟩, c)

/-- Reads the pieces up to the end of the source in so many steps. -/
def pieces? : Nat → Cursor → Option (List Piece)
  | 0, _ => none
  | n + 1, c => do
    match ← c.next? with
    | (none, _) => return []
    | (some p, c) => return p :: (← pieces? n c)

end Cursor
end Markup
end HtmlCompose
