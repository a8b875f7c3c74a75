/-
# Reading placeholder tags

A tag stands between double braces; blanks may stand between its parts, and a
tilde inside either end asks for the white space on that side to be dropped.

| tag | written |
| --- | --- |
| value, escaped | a path, or a helper with arguments |
| value as it is | the same between triple braces, or a path after `&` |
| block | `#` and a helper, until `/` and its name |
| alternative | `else` or `^`, alone or with a helper of its own |
| comment | `!`, or `!--` until `--` |
| raw block | quadruple braces around a helper, until `/` and its name |
| definition | `#*` and `inline` with a name, until `/inline` |
| inclusion | `>` and the name of a part with arguments, or `#>` until `/` and the name |

Alternatives of the grammar are tried in order and the first that fits is kept.
Recursion is bounded by the length of the text.
-/
import HtmlCompose.Data.Json.Reader
import HtmlCompose.Placeholder.Template

namespace HtmlCompose
namespace Placeholder

/-! ### Characters -/

/-- Blanks that may stand between the parts of a tag. -/
def isGap (c : Char) : Bool :=
  c == ' ' || c == '\t' || c == '\n' || c == '\r'

/-- The text from the next part on. -/
def skipGaps (s : List Char) : List Char := s.dropWhile isGap

/-- A character of names. -/
def isSymbol (c : Char) : Bool :=
  c.isAlphanum || c == '_' || c == '$' || c == '-' || 0x80 ≤ c.toNat

/-- The text goes on with a character of names. -/
def startsSymbol : List Char → Bool
  | c :: _ => isSymbol c
  | [] => false

/-- What has been read of a text when a rest is left. -/
def consumed (s rest : List Char) : List Char := s.take (s.length - rest.length)

/-- What follows a mark, after any blanks. -/
def mark? (m : List Char) (s : List Char) : Option (List Char) := Text.after? m (skipGaps s)

/-- A non-empty run of characters of a class. -/
def run? (p : Char → Bool) (s : List Char) : Option (String × List Char) :=
  let run := s.takeWhile p
  if run.isEmpty then none else some (String.ofList run, s.dropWhile p)

/-- A name. -/
def name? (s : List Char) : Option (String × List Char) := run? isSymbol s

/-! ### Paths -/

/-- A character between the keys of a path. -/
def isSeparator (c : Char) : Bool := c == '/' || c == '.'

/-- A pattern with a separator after it, dropped if the text starts with it. -/
def separated (pattern s : List Char) : Bool × List Char :=
  match Text.after? pattern s with
  | some (c :: rest) => if isSeparator c then (true, rest) else (false, s)
  | _ => (false, s)

/-- A key of a path: a run of name characters, or anything between square brackets. -/
def key? : List Char → Option (String × List Char)
  | '[' :: cs => (Text.cutAt [']'] cs).map fun (k, rest) => (String.ofList k, rest)
  | cs => name? cs

/-- Further keys, each after a separator. -/
def moreKeys : Nat → List Char → List String × List Char
  | n + 1, c :: cs =>
    match if isSeparator c then key? cs else none with
    | some (k, rest) =>
      let (ks, rest) := moreKeys n rest
      (k :: ks, rest)
    | none => ([], c :: cs)
  | _, s => ([], s)

/-- The number of steps outward and what follows them. -/
def outwardSteps : List Char → Nat × List Char
  | '.' :: '.' :: c :: rest =>
    if isSeparator c then
      let (n, rest) := outwardSteps rest
      (n + 1, rest)
    else (0, '.' :: '.' :: c :: rest)
  | s => (0, s)

/-- A path; `this` stands for no step, and as a variable for no step outward either. -/
def path? (s : List Char) : Option (Path × List Char) := do
  let here := match separated ['t', 'h', 'i', 's'] s with
    | (true, rest) => rest
    | (false, s) => (Text.after? ['.', '/'] s).getD s
  let (atRoot, rest) := separated ['@', 'r', 'o', 'o', 't'] here
  let (atLocals, rest) := match rest with
    | '@' :: rest => (true, rest)
    | _ => (false, rest)
  let (outward, rest) := outwardSteps rest
  let (first, rest) ← key? rest
  let (others, rest) := moreKeys rest.length rest
  let keys := (first :: others).filter (· != "this")
  let origin : Origin :=
    if atRoot then .root else if atLocals && !keys.isEmpty then .locals else .block
  let outward := if atLocals && keys.isEmpty then 0 else outward
  some (⟨String.ofList (consumed s rest), origin, outward, keys⟩, rest)

/-! ### Literals -/

/-- What follows a quoted text, after its opening quote. -/
def quotedEnd? (quote : Char) : List Char → Option (List Char)
  | [] => none
  | '\\' :: 'u' :: a :: b :: c :: d :: rest =>
    if [a, b, c, d].all fun x => (Text.digitOf 16 x).isSome then quotedEnd? quote rest else none
  | '\\' :: c :: rest =>
    if c == quote || ['\\', '/', 'b', 'f', 'n', 'r', 't'].elem c then quotedEnd? quote rest
    else none
  | c :: rest =>
    if c == quote then some rest else if c == '\\' then none else quotedEnd? quote rest

/-- What follows a run of digits, if there is one. -/
def digitsEnd? (s : List Char) : Option (List Char) :=
  if (s.takeWhile Char.isDigit).isEmpty then none else some (s.dropWhile Char.isDigit)

/-- The rest when no name character follows. -/
def unlessSymbol (rest : List Char) : Option (List Char) :=
  if startsSymbol rest then none else some rest

/-- What follows a number. -/
def numberEnd? (s : List Char) : Option (List Char) := do
  let minus (s : List Char) : List Char := (Text.after? ['-'] s).getD s
  let rest ← digitsEnd? (minus s)
  let rest := ((Text.after? ['.'] rest).getD rest).dropWhile Char.isDigit
  let exponent := (Text.after? ['E'] rest).bind fun rest => digitsEnd? (minus rest)
  unlessSymbol (exponent.getD rest)

/-- What follows a word that is a literal. -/
def wordEnd? (s : List Char) : Option (List Char) :=
  let word (w : List Char) : Option (List Char) := (Text.after? w s).bind unlessSymbol
  word ['n', 'u', 'l', 'l'] <|> word ['t', 'r', 'u', 'e'] <|> word ['f', 'a', 'l', 's', 'e']

mutual
/-- What follows a literal. -/
def literalEnd? : Nat → List Char → Option (List Char)
  | 0, _ => none
  | n + 1, s =>
    match s with
    | '"' :: cs => quotedEnd? '"' cs
    | '\'' :: cs => quotedEnd? '\'' cs
    | '[' :: cs =>
      let cs := skipGaps cs
      itemsEnd? n ((literalEnd? n cs).getD cs)
    | '\x7b' :: cs =>
      let cs := skipGaps cs
      entriesEnd? n ((entryEnd? n cs).getD cs)
    | _ => numberEnd? s <|> wordEnd? s

/-- What follows the items after the first and the bracket. -/
def itemsEnd? : Nat → List Char → Option (List Char)
  | 0, _ => none
  | n + 1, s =>
    match skipGaps s with
    | ',' :: cs => (literalEnd? n (skipGaps cs)).bind (itemsEnd? n)
    | ']' :: cs => some cs
    | _ => none

/-- What follows a quoted key, a colon and a literal. -/
def entryEnd? : Nat → List Char → Option (List Char)
  | 0, _ => none
  | n + 1, s => do
    let rest ← match s with
      | '"' :: cs => quotedEnd? '"' cs
      | '\'' :: cs => quotedEnd? '\'' cs
      | _ => none
    let rest ← mark? [':'] rest
    literalEnd? n (skipGaps rest)

/-- What follows the entries after the first and the brace. -/
def entriesEnd? : Nat → List Char → Option (List Char)
  | 0, _ => none
  | n + 1, s =>
    match skipGaps s with
    | ',' :: cs => (entryEnd? n (skipGaps cs)).bind (entriesEnd? n)
    | '\x7d' :: cs => some cs
    | _ => none
end

/-- The JSON text of a literal: apostrophes around a text stand for quotes. -/
def literalJson (s : List Char) : List Char :=
  match s with
  | '\'' :: cs =>
    let inner := Text.replacePair '\\' '\'' ['\''] cs.dropLast
    '"' :: (inner.flatMap fun c => if c = '"' then ['\\', '"'] else [c]) ++ ['"']
  | s => s

/-- A literal. -/
def literal? (s : List Char) : Option (Term × List Char) := do
  let rest ← literalEnd? (s.length + 1) s
  match Json.read? (String.ofList (literalJson (consumed s rest))) with
  | some value => some (.literal value, rest)
  | none => some (.malformed, rest)

/-! ### Terms and calls -/

/-- The text goes on with a word that is no argument. -/
def startsKeyword (s : List Char) : Bool :=
  let keyword (w : List Char) : Bool :=
    (Text.after? w s).any fun rest => !startsSymbol (skipGaps rest)
  keyword ['a', 's'] || keyword ['e', 'l', 's', 'e']

mutual
/-- A term as an argument. -/
def term? : Nat → List Char → Option (Term × List Char)
  | 0, _ => none
  | n + 1, s =>
    if startsKeyword s then none
    else literal? s <|> (path? s).map (fun (p, rest) => (.path p, rest)) <|> nested? n s

/-- A call between parentheses. -/
def nested? : Nat → List Char → Option (Term × List Char)
  | 0, _ => none
  | n + 1, s => do
    let inner ← Text.after? ['('] s
    let inner := skipGaps inner
    let called : Option (Term × List Char) := do
      let (helper, rest) ← name? inner
      match arguments n rest with
      | ([], _) => none
      | (args, rest) => some (.call helper args, rest)
    let (t, rest) ← called <|> (path? inner).map fun (p, rest) => (.call p.text [], rest)
    let rest ← mark? [')'] rest
    some (t, rest)

/-- An argument with or without a name. -/
def argument? : Nat → List Char → Option (Term × List Char)
  | 0, _ => none
  | n + 1, s =>
    let named : Option (Term × List Char) := do
      let (name, rest) ← name? s
      let rest ← mark? ['='] rest
      let (t, rest) ← term? n (skipGaps rest)
      some (.named name t, rest)
    named <|> term? n s

/-- As many arguments as there are. -/
def arguments : Nat → List Char → List Term × List Char
  | 0, s => ([], s)
  | n + 1, s =>
    match argument? n (skipGaps s) with
    | none => ([], s)
    | some (t, rest) =>
      let (ts, rest) := arguments n rest
      (t :: ts, rest)
end

/-- Enough steps to read the terms of a text. -/
def termSteps (s : List Char) : Nat := 4 * s.length + 4

/-- The names that a block gives to what it steps into, if it gives any. -/
def blockNames (s : List Char) : List String × List Char :=
  let read : Option (List String × List Char) := do
    let rest ← mark? ['a', 's'] s
    let rest ← mark? ['|'] rest
    let (first, rest) ← name? (skipGaps rest)
    let (second, rest) := match name? (skipGaps rest) with
      | some (name, rest) => ([name], rest)
      | none => ([], rest)
    let rest ← mark? ['|'] rest
    some (first :: second, rest)
  read.getD ([], s)

/-- A helper with its arguments and names. -/
def call? (s : List Char) : Option (Call × List Char) := do
  let (helper, rest) ← name? (skipGaps s)
  let (args, rest) := arguments (termSteps rest) rest
  let (names, rest) := blockNames rest
  some (⟨helper, args, names⟩, rest)

/-- A path or a nested call. -/
def plain? (s : List Char) : Option (Term × List Char) :=
  nested? (termSteps s) s <|> (path? s).map fun (p, rest) => (.path p, rest)

/-! ### Tags -/

/-- What a tag does. -/
inductive TagKind where
  /-- the value of a term, which may stand alone -/
  | value (escaped alone : Bool) (term : Term)
  | openBlock (call : Call)
  | alternative
  | alternativeBlock (call : Call)
  | closeBlock (name : String)
  | comment
  /-- the start of a definition -/
  | openDefinition (call : Call)
  /-- a definition without a body -/
  | definition (call : Call)
  | inclusion (name : Term) (arguments : List Term)
  /-- the start of an inclusion with a body -/
  | openInclusion (name : Term) (arguments : List Term)
deriving Repr

/-- A tag with the sides on which it drops white space. -/
structure Tag where
  kind : TagKind
  trimBefore : Bool := false
  trimAfter : Bool := false
deriving Repr

/-- All literals of a tag are data values. -/
def TagKind.isWellFormed : TagKind → Bool
  | .value _ _ t => t.isWellFormed
  | .openBlock c | .alternativeBlock c | .openDefinition c | .definition c =>
    areWellFormed c.arguments
  | .inclusion name arguments | .openInclusion name arguments =>
    name.isWellFormed && areWellFormed arguments
  | .alternative | .closeBlock _ | .comment => true

/-- A tilde, if there is one. -/
def tilde (s : List Char) : Bool × List Char :=
  match mark? ['~'] s with
  | some rest => (true, rest)
  | none => (false, s)

/-- The start of a tag with a number of braces. -/
def opening? (braces : Nat) (s : List Char) : Option (Bool × List Char) :=
  (Text.after? (List.replicate braces '\x7b') s).map tilde

/-- The end of a tag with a number of braces. -/
def closing? (braces : Nat) (s : List Char) : Option (Bool × List Char) :=
  let (trim, s) := tilde s
  (mark? (List.replicate braces '\x7d') s).map fun rest => (trim, rest)

/-- A tag with one part between its ends. -/
def enclosed? (braces : Nat) (part : List Char → Option (TagKind × List Char)) (s : List Char) :
    Option (Tag × List Char) := do
  let (trimBefore, s) ← opening? braces s
  let (kind, s) ← part s
  let (trimAfter, s) ← closing? braces s
  some (⟨kind, trimBefore, trimAfter⟩, s)

/-- `else` or `^`. -/
def elseMark? (s : List Char) : Option (List Char) :=
  mark? ['e', 'l', 's', 'e'] s <|> mark? ['^'] s

/-- An alternative, with or without a helper of its own. -/
def alternative? (s : List Char) : Option (Tag × List Char) :=
  enclosed? 2 (fun s => (elseMark? s).map fun s => (.alternative, s)) s <|>
    enclosed? 2 (fun s => (elseMark? s).bind fun s =>
      (call? s).map fun (c, s) => (.alternativeBlock c, s)) s

/-- A helper with arguments, or a path or nested call, which stands alone. -/
def target? (escaped : Bool) (s : List Char) : Option (TagKind × List Char) :=
  let s := skipGaps s
  let called : Option (TagKind × List Char) := do
    let (helper, rest) ← name? s
    match arguments (termSteps rest) rest with
    | ([], _) => none
    | (args, rest) => some (.value escaped false (.call helper args), rest)
  called <|> (plain? s).map fun (t, rest) => (.value escaped true t, rest)

/-- A value, escaped. -/
def escaped? (s : List Char) : Option (Tag × List Char) :=
  enclosed? 2 (target? true) s

/-- A value as it is. -/
def unescaped? (s : List Char) : Option (Tag × List Char) :=
  enclosed? 3 (target? false) s <|>
    enclosed? 2 (fun s => do
      let s ← mark? ['\x7b'] s
      let (k, s) ← target? false s
      let s ← mark? ['\x7d'] s
      some (k, s)) s <|>
    enclosed? 2 (fun s => do
      let s ← mark? ['&'] s
      let (t, s) ← plain? (skipGaps s)
      some (.value false true t, s)) s

/-- A tag with a mark and a helper. -/
def marked? (braces : Nat) (sign : List Char) (kind : Call → TagKind) (s : List Char) :
    Option (Tag × List Char) :=
  enclosed? braces (fun s => (mark? sign s).bind fun s =>
    (call? s).map fun (c, s) => (kind c, s)) s

/-- A character of part names. -/
def isPartSymbol (c : Char) : Bool :=
  (isSymbol c && c != '$') || c == '/' || c == '.'

/-- What follows a part name in apostrophes, after the first one; a backslash keeps an apostrophe
inside. -/
def apostropheEnd? : List Char → Option (List Char)
  | [] => none
  | '\\' :: '\'' :: rest => apostropheEnd? rest
  | c :: rest => if c = '\'' then some rest else apostropheEnd? rest

/-- A part name in apostrophes, which belong to it; it is not empty. -/
def quotedPart? (s : List Char) : Option (String × List Char) :=
  match s with
  | '\'' :: c :: rest =>
    if c = '\'' then none
    else (apostropheEnd? (c :: rest)).map fun rest => (String.ofList (consumed s rest), rest)
  | _ => none

/-- The name of a part: as written, or the value of a nested call. -/
def partName? (s : List Char) : Option (Term × List Char) :=
  let written (name : String × List Char) : Term × List Char :=
    (.literal (.string name.1), name.2)
  (run? isPartSymbol s <|> quotedPart? s).map written <|> nested? (termSteps s) s <|>
    (path? s).map fun (p, rest) => written (p.text, rest)

/-- The end of a block, which repeats the name of a helper or a part. -/
def closeBlock? (braces : Nat) (s : List Char) : Option (Tag × List Char) :=
  enclosed? braces (fun s => do
    let s ← mark? ['/'] s
    let s := skipGaps s
    let (name, s) ← run? (fun c => isSymbol c || isPartSymbol c) s <|> quotedPart? s
    some (.closeBlock name, s)) s

/-- A comment. -/
def comment? (s : List Char) : Option (Tag × List Char) := do
  let body ← Text.after? ['\x7b', '\x7b', '!'] s
  let long := (mark? ['-', '-'] body).bind fun body => do
    let (_, rest) ← Text.cutAt ['-', '-', '\x7d', '\x7d'] body
    some rest
  let short := (Text.cutAt ['\x7d', '\x7d'] body).map (·.2)
  let rest ← long <|> short
  some (⟨.comment, false, false⟩, rest)

/-- A tag with marks, the name of a part and arguments. -/
def including? (signs : List (List Char)) (kind : Term → List Term → TagKind) (s : List Char) :
    Option (Tag × List Char) :=
  enclosed? 2 (fun s => do
    let s ← signs.foldlM (fun s sign => mark? sign s) s
    let (name, s) ← partName? (skipGaps s)
    let (args, s) := arguments (termSteps s) s
    some (kind name args, s)) s

/-- A tag at the start of a text. -/
def Tag.read? (s : List Char) : Option (Tag × List Char) :=
  alternative? s <|> escaped? s <|> unescaped? s <|> marked? 2 ['#'] .openBlock s <|>
    closeBlock? 2 s <|> comment? s <|> marked? 2 ['*'] .definition s <|>
    including? [['>']] .inclusion s <|> including? [['#'], ['>']] .openInclusion s <|>
    enclosed? 2 (fun s => do
      let s ← mark? ['#'] s
      let s ← mark? ['*'] s
      let (c, s) ← call? s
      some (.openDefinition c, s)) s

end Placeholder
end HtmlCompose
