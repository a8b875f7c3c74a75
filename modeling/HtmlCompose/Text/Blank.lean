/-
# White space and the edges of a text

Blank characters are those with the Unicode property `White_Space`:

| characters | code points |
| --- | --- |
| controls and space | `U+0009`–`U+000D`, `U+0020`, `U+0085` |
| no-break and Ogham space | `U+00A0`, `U+1680` |
| typographic spaces | `U+2000`–`U+200A`, `U+202F`, `U+205F`, `U+3000` |
| separators | `U+2028`, `U+2029` |

Everything that is trimmed or cut at blanks in this library uses this one class.
-/

namespace HtmlCompose
namespace Text

/-- A character with the property `White_Space`. -/
def isBlank (c : Char) : Bool :=
  let n := c.toNat
  (9 ≤ n && n ≤ 13) || n == 0x20 || n == 0x85 || n == 0xA0 || n == 0x1680 ||
    (0x2000 ≤ n && n ≤ 0x200A) || n == 0x2028 || n == 0x2029 || n == 0x202F ||
    n == 0x205F || n == 0x3000

/-- The text without the characters of a class at its start. -/
def trimStart (p : Char → Bool) (s : List Char) : List Char :=
  s.dropWhile p

/-- The text without the characters of a class at its end. -/
def trimEnd (p : Char → Bool) (s : List Char) : List Char :=
  (s.reverse.dropWhile p).reverse

/-- The text without blanks at its two ends. -/
def trim (s : List Char) : List Char :=
  trimEnd isBlank (trimStart isBlank s)

/-- No character of the text is anything but blank. -/
def allBlank (s : List Char) : Bool :=
  s.all isBlank

/-- The maximal runs of characters that are not blank, from left to right. -/
def words (s : List Char) : List (List Char) :=
  (s.splitOnP isBlank).filter (fun w => !w.isEmpty)

end Text

/-- The text without blanks at its two ends. -/
def trimmed (s : String) : String :=
  String.ofList (Text.trim s.toList)

/-- The text holds nothing but blanks. -/
def isAllBlank (s : String) : Bool :=
  Text.allBlank s.toList

end HtmlCompose
