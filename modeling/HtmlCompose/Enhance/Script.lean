/-
# Compiling enhancement scripts

Comments outside string literals are taken out, then blanks at line ends and blank
lines. A string in quotes ends at its line's end at the latest; one in backticks may
go on. What never ends is a fault, so that a broken script is never used.

| in | a character | leads to |
| --- | --- | --- |
| code | quote, apostrophe, backtick | a string |
| code | `/` followed by `/` or `*` | a line or block comment |
| string | backslash | the next character is part of the string |
| block comment | `*/` | code |
| line comment | line feed | code |
-/
import HtmlCompose.Text.Blank

namespace HtmlCompose
namespace Script

/-- Why a script does not compile. -/
inductive Fault where
  | unterminatedString
  | unterminatedComment
deriving DecidableEq, Repr

/-- The fault in words. -/
def Fault.message : Fault → String
  | unterminatedString => "script compilation failed: unterminated string literal"
  | unterminatedComment => "script compilation failed: unterminated block comment"

/-- Where a position of a script is. -/
inductive Place where
  | code
  /-- after a `/` that may open a comment -/
  | slash
  /-- in a string of a quote -/
  | string (quote : Char)
  /-- after a backslash in a string -/
  | escape (quote : Char)
  | block
  /-- after a `*` in a block comment -/
  | blockEnd
  | line
deriving DecidableEq, Repr

/-- Characters that open a string. -/
def isQuote (c : Char) : Bool := c == '"' || c == '\'' || c == '\x60'

/-- What a script holds from a place on, without comments. A `/` in code is written as soon as it
is known to open no comment. -/
def strip : Place → List Char → Except Fault (List Char)
  | .code, [] => .ok []
  | .code, c :: cs =>
    if c = '/' then strip .slash cs
    else if isQuote c then (strip (.string c) cs).map (c :: ·)
    else (strip .code cs).map (c :: ·)
  | .slash, [] => .ok ['/']
  | .slash, c :: cs =>
    if c = '*' then strip .block cs
    else if c = '/' then strip .line cs
    else if isQuote c then (strip (.string c) cs).map ('/' :: c :: ·)
    else (strip .code cs).map ('/' :: c :: ·)
  | .string _, [] => .error .unterminatedString
  | .string q, c :: cs =>
    if c = '\\' then (strip (.escape q) cs).map (c :: ·)
    else if c = q then (strip .code cs).map (c :: ·)
    else if c = '\n' ∧ q ≠ '\x60' then .error .unterminatedString
    else (strip (.string q) cs).map (c :: ·)
  | .escape _, [] => .error .unterminatedString
  | .escape q, c :: cs => (strip (.string q) cs).map (c :: ·)
  | .block, [] => .error .unterminatedComment
  | .block, c :: cs => strip (if c = '*' then .blockEnd else .block) cs
  | .blockEnd, [] => .error .unterminatedComment
  | .blockEnd, c :: cs =>
    strip (if c = '/' then .code else if c = '*' then .blockEnd else .block) cs
  | .line, [] => .ok []
  | .line, c :: cs =>
    if c = '\n' then (strip .code cs).map (c :: ·) else strip .line cs

/-- The lines of a text without blanks at their ends, those that hold nothing else left out. -/
def tidyLines (s : List Char) : List Char :=
  List.intercalate ['\n']
    (((s.splitOn '\n').filter (fun l => !Text.allBlank l)).map (Text.trimEnd Text.isBlank))

/-- The script as it is sent to a browser. -/
def compile (source : String) : Except Fault String :=
  (strip .code source.toList).map fun s => String.ofList (tidyLines s)

end Script
end HtmlCompose
