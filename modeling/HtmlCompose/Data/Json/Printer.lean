/-
# Writing JSON

The compact form: no blanks, object entries in key order, characters below
`U+0020` escaped, everything else as it is.

| character | written |
| --- | --- |
| quote, backslash | a backslash before it |
| `U+0008`, `U+0009`, `U+000A`, `U+000C`, `U+000D` | `\b`, `\t`, `\n`, `\f`, `\r` |
| any other below `U+0020` | `\u00xx`, lower-case hexadecimal |
-/
import HtmlCompose.Data.Json

namespace HtmlCompose

/-- The text of a number. -/
def Number.write : Number → List Char
  | .int value => (toString value).toList
  | .double value => Decimal.write value

namespace Json

/-- A hexadecimal digit in lower case. -/
def hexDigit (n : Nat) : Char :=
  if n < 10 then Char.ofNat ('0'.toNat + n) else Char.ofNat ('a'.toNat + (n - 10))

/-- One character inside a quoted text. -/
def writeChar (c : Char) : List Char :=
  if c = '"' then ['\\', '"']
  else if c = '\\' then ['\\', '\\']
  else if c = '\x08' then ['\\', 'b']
  else if c = '\t' then ['\\', 't']
  else if c = '\n' then ['\\', 'n']
  else if c = '\x0c' then ['\\', 'f']
  else if c = '\r' then ['\\', 'r']
  else if c.toNat < 0x20 then
    ['\\', 'u', '0', '0', hexDigit (c.toNat / 16), hexDigit (c.toNat % 16)]
  else [c]

/-- A quoted text. -/
def writeString (s : String) : List Char :=
  '"' :: s.toList.flatMap writeChar ++ ['"']

mutual
/-- The compact text of a value. -/
def write : Json → List Char
  | .null => ['n', 'u', 'l', 'l']
  | .bool true => ['t', 'r', 'u', 'e']
  | .bool false => ['f', 'a', 'l', 's', 'e']
  | .number n => n.write
  | .string s => writeString s
  | .array [] => ['[', ']']
  | .array (item :: items) => '[' :: (write item ++ writeItems items)
  | .object [] => ['\x7b', '\x7d']
  | .object ((key, value) :: fields) =>
    '\x7b' :: (writeString key ++ ':' :: (write value ++ writeFields fields))

/-- The items after the first, each with its comma, and the closing bracket. -/
def writeItems : List Json → List Char
  | [] => [']']
  | item :: items => ',' :: (write item ++ writeItems items)

/-- The entries after the first, each with its comma, and the closing brace. -/
def writeFields : List (String × Json) → List Char
  | [] => ['\x7d']
  | (key, value) :: fields =>
    ',' :: (writeString key ++ ':' :: (write value ++ writeFields fields))
end

/-- The compact text of a value. -/
def print (value : Json) : String :=
  String.ofList value.write

end Json
end HtmlCompose
