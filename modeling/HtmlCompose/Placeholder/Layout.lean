/-
# From text to template

A text is cut into tags and what stands between them. A backslash before a tag
takes its meaning away; of several, one is dropped and the tag keeps its meaning.

White space around tags:

| situation | dropped |
| --- | --- |
| a tilde at the end of a tag | all white space after the tag |
| a tilde at the start of a tag | all white space before it |
| a tag that writes nothing, alone on its line | the rest of the line with its line end, and the spaces and tabs before the tag |
| an inclusion alone on its line | the rest of the line with its line end |

A tag is alone only on a line that has an end. The spaces and tabs right before an
inclusion are what every further line of the part is indented by.

The pieces are then put together: whatever has a body has its end, and a block has
at most one plain alternative after any number of alternatives with helpers of their
own.
-/
import HtmlCompose.Placeholder.Tag
import HtmlCompose.Text.Blank

namespace HtmlCompose
namespace Placeholder

/-- A text or a tag, with whether the tag is alone on its line. -/
inductive Item where
  | text (s : List Char)
  | tag (t : Tag) (alone : Bool)
deriving Repr

/-- A text or a tag after the white space around tags is dropped; a tag with the indent that is
left before it. -/
inductive LaidItem where
  | text (s : List Char)
  | tag (kind : TagKind) (indent : List Char)
deriving Repr

/-! ### Cutting -/

/-- A space or a tab. -/
def isIndent (c : Char) : Bool := c == ' ' || c == '\t'

/-- A line end follows at once. -/
def startsLineEnd : List Char → Bool
  | c :: _ => c == '\n' || c == '\r'
  | [] => false

/-- What follows on the line is blank, and the line has an end. -/
def lineEndsIn (after : List Char) : Bool := startsLineEnd (after.dropWhile isIndent)

/-- What stands before on the line, given backwards, is blank. -/
def lineStartsIn (before : List Char) : Bool :=
  let before := before.dropWhile isIndent
  before.isEmpty || startsLineEnd before

/-- Both braces that open a tag. -/
def braces : List Char := ['\x7b', '\x7b']

/-- The text up to the next mark, with escapes undone, and the rest; the first argument bounds the
number of characters. -/
def plainText (stop : List Char) : Nat → List Char → List Char × List Char
  | 0, s => ([], s)
  | _, [] => ([], [])
  | n + 1, c :: cs =>
    let slashes := (c :: cs).takeWhile (· == '\\')
    let rest := (c :: cs).dropWhile (· == '\\')
    match Text.after? braces rest with
    | some afterBraces =>
      if slashes.length = 1 then
        let shown := if (Text.after? braces afterBraces).isSome then braces ++ braces else braces
        let (s, rest) := plainText stop n ((Text.after? shown rest).getD [])
        (shown ++ s, rest)
      else if 2 ≤ slashes.length then
        let (s, rest) := plainText stop n rest
        (slashes.drop 1 ++ s, rest)
      else if (Text.after? stop (c :: cs)).isSome then ([], c :: cs)
      else
        let (s, rest) := plainText stop n cs
        (c :: s, rest)
    | none =>
      if slashes.isEmpty then
        let (s, rest) := plainText stop n cs
        (c :: s, rest)
      else
        let (s, rest) := plainText stop n rest
        (slashes ++ s, rest)

/-- The tag writes a value, so it never stands alone on a line. -/
def TagKind.writes : TagKind → Bool
  | .value .. => true
  | _ => false

/-- A tag as an item, with the text before it (backwards) and after it. -/
def tagItem (before after : List Char) (t : Tag) : Item :=
  .tag t (!t.kind.writes && lineStartsIn before && lineEndsIn after)

/-- A raw block: its start, its text and its end. -/
def rawBlock? (before s : List Char) : Option (List Item × List Char) := do
  let (start, rest) ← marked? 4 [] .openBlock s
  if !start.kind.isWellFormed then none
  let fourBraces := braces ++ braces
  let body := skipGaps rest
  let (text, rest') := plainText fourBraces (body.length + 1) body
  let (stop, rest'') ← closeBlock? 4 rest'
  let beforeEnd := (consumed s rest').reverse ++ before
  some ([tagItem before rest start, .text text, tagItem beforeEnd rest'' stop], rest'')

/-- The items of a text, given what stands before it backwards; nothing if a tag is malformed. The
first argument bounds the number of items. -/
def items? : Nat → List Char → List Char → Option (List Item)
  | 0, _, _ => none
  | _, _, [] => some []
  | n + 1, before, s =>
    let onward (rest : List Char) : Option (List Item) :=
      items? n ((consumed s rest).reverse ++ before) rest
    match Text.after? braces s with
    | none =>
      let (text, rest) := plainText braces (s.length + 1) s
      (onward rest).map (.text text :: ·)
    | some _ =>
      match Tag.read? s with
      | some (t, rest) =>
        if t.kind.isWellFormed then (onward rest).map (tagItem before rest t :: ·) else none
      | none =>
        (rawBlock? before s).bind fun (block, rest) => (onward rest).map (block ++ ·)

/-! ### White space -/

/-- The text without one line end at its start. -/
def dropLineEnd : List Char → List Char
  | '\r' :: '\n' :: rest => rest
  | '\n' :: rest => rest
  | s => s

/-- A text before an item. -/
def trimmedBefore (s : List Char) : List Item → List Char
  | .tag t alone :: _ =>
    let s := if t.trimBefore then Text.trimEnd Text.isBlank s else s
    match t.kind with
    | .inclusion .. => s
    | _ => if alone then Text.trimEnd isIndent s else s
  | _ => s

/-- The spaces and tabs at the end of a text. -/
def indentAtEnd (s : List Char) : List Char := (s.reverse.takeWhile isIndent).reverse

/-- Drops the white space that the tags ask for: all of it after a tilde, the rest of the line
after a tag alone on it. Each tag is given the indent that is left before it; `before` is the text
right before the items. -/
def lay (all line : Bool) (before : List Char) : List Item → List LaidItem
  | [] => []
  | .text s :: rest =>
    if all && s.all isGap then lay all line before rest
    else
      let s :=
        if all then Text.trimStart Text.isBlank s
        else if line then dropLineEnd (s.dropWhile isIndent)
        else s
      let s := trimmedBefore s rest
      .text s :: lay all false s rest
  | .tag t alone :: rest =>
    let all := match t.kind with
      | .comment => all
      | _ => t.trimAfter
    .tag t.kind (indentAtEnd before) :: lay all (if t.kind.writes then line else alone) [] rest

/-! ### Putting together -/

/-- What needs an end. -/
inductive Opening where
  | block (call : Call)
  | definition (call : Call)
  | wrapper (name : String) (arguments : List Term)

/-- The name that its end repeats. -/
def Opening.name : Opening → String
  | .block call | .definition call => call.helper
  | .wrapper name _ => name

/-- A definition; there is one kind of them. -/
def Call.definition (c : Call) (body : List Piece) : Piece :=
  if c.helper = "inline" then .define c.arguments body else .refused

/-- Something whose end has not been met. -/
structure OpenBlock where
  opening : Opening
  /-- the body, once an alternative has begun -/
  body : Option (List Piece)
  /-- it is the alternative of the block around it -/
  chained : Bool
  /-- the pieces before it, last one first -/
  before : List Piece

/-- The piece, with what has been read since its start or its alternative, last piece first. -/
def OpenBlock.close (b : OpenBlock) (current : List Piece) : Piece :=
  match b.opening with
  | .block call =>
    match b.body with
    | none => .block call current.reverse []
    | some body => .block call body current.reverse
  | .definition call => call.definition current.reverse
  | .wrapper name arguments => .wrapper name arguments current.reverse

/-- Closes a block and those that it is an alternative of: what is open then, and the pieces. -/
def closeBlocks (name : String) : List OpenBlock → List Piece → Option (List OpenBlock × List Piece)
  | [], _ => none
  | b :: outer, current =>
    let piece := b.close current
    if b.chained then closeBlocks name outer [piece]
    else if b.opening.name = name then some (outer, piece :: b.before)
    else none

/-- The pieces of some items, given the blocks that are open and the pieces so far, last one
first. -/
def assemble? : List OpenBlock → List Piece → List LaidItem → Option (List Piece)
  | [], current, [] => some current.reverse
  | _ :: _, _, [] => none
  | blocks, current, .text s :: rest => assemble? blocks (.text s :: current) rest
  | blocks, current, .tag kind indent :: rest =>
    match kind with
    | .value escaped alone term => assemble? blocks (.value escaped alone term :: current) rest
    | .comment => assemble? blocks current rest
    | .definition _ => assemble? blocks (.refused :: current) rest
    | .inclusion name arguments =>
      assemble? blocks (.inclusion name arguments indent :: current) rest
    | .openBlock call => assemble? (⟨.block call, none, false, current⟩ :: blocks) [] rest
    | .openDefinition call =>
      assemble? (⟨.definition call, none, false, current⟩ :: blocks) [] rest
    | .openInclusion (.literal (.string name)) arguments =>
      assemble? (⟨.wrapper name arguments, none, false, current⟩ :: blocks) [] rest
    | .openInclusion _ _ => none
    | .closeBlock name =>
      (closeBlocks name blocks current).bind fun (blocks, current) =>
        assemble? blocks current rest
    | .alternative =>
      match blocks with
      | ⟨.block call, none, chained, before⟩ :: outer =>
        assemble? (⟨.block call, some current.reverse, chained, before⟩ :: outer) [] rest
      | _ => none
    | .alternativeBlock inner =>
      match blocks with
      | ⟨.block call, none, chained, before⟩ :: outer =>
        assemble? (⟨.block inner, none, true, []⟩ ::
          ⟨.block call, some current.reverse, chained, before⟩ :: outer) [] rest
      | _ => none

/-- The template of a text, if it is one. -/
def parse? (s : List Char) : Option (List Piece) :=
  (items? (s.length + 1) [] s).bind fun items => assemble? [] [] (lay false false [] items)

end Placeholder
end HtmlCompose
