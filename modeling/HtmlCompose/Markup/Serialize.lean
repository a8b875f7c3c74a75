/-
# Writing markup

A tree is written with its tags, a forest as its trees in a row; a fragment is
written as what it holds.

| written | rule |
| --- | --- |
| attribute | its name, and its value in double quotes unless it is empty |
| attribute value | `&` and `"` as character references |
| void element without children | no closing tag |
| text, declaration | as it is |
-/
import HtmlCompose.Markup.Tree

namespace HtmlCompose
namespace Markup

/-- A character inside a double-quoted attribute value. -/
def attributeChar (c : Char) : List Char :=
  if c = '&' then ['&', 'a', 'm', 'p', ';']
  else if c = '"' then ['&', 'q', 'u', 'o', 't', ';']
  else [c]

/-- A character of data inserted as text. -/
def textChar (c : Char) : List Char :=
  if c = '&' then ['&', 'a', 'm', 'p', ';']
  else if c = '<' then ['&', 'l', 't', ';']
  else if c = '>' then ['&', 'g', 't', ';']
  else [c]

/-- A value escaped for a double-quoted attribute. -/
def escapeAttribute (s : String) : String :=
  String.ofList (s.toList.flatMap attributeChar)

/-- Data escaped for insertion as text. -/
def escapeText (s : String) : String :=
  String.ofList (s.toList.flatMap textChar)

/-- An attribute with the blank before it. -/
def writeAttribute (a : Attribute) : List Char :=
  ' ' :: a.name.toList ++
    if a.value.isEmpty then []
    else '=' :: '"' :: (a.value.toList.flatMap attributeChar ++ ['"'])

/-- The opening tag of an element. -/
def writeOpenTag (e : Element) : List Char :=
  '<' :: e.name.toList ++ e.attrs.flatMap writeAttribute ++ ['>']

/-- The closing tag of an element. -/
def writeCloseTag (e : Element) : List Char :=
  '<' :: '/' :: e.name.toList ++ ['>']

/-- A comment with its delimiters. -/
def writeComment (body : String) : List Char :=
  ['<', '!', '-', '-'] ++ body.toList ++ ['-', '-', '>']

mutual
/-- The markup of a tree. -/
def Tree.write : Tree → List Char
  | .node .fragment kids => Forest.write kids
  | .node (.text s) _ => s.toList
  | .node (.comment body) _ => writeComment body
  | .node (.doctype s) _ => s.toList
  | .node (.element e) kids =>
    if isVoid e.name && kids.isEmpty then writeOpenTag e
    else writeOpenTag e ++ Forest.write kids ++ writeCloseTag e

/-- The markup of trees in a row. -/
def Forest.write : List Tree → List Char
  | [] => []
  | t :: rest => Tree.write t ++ Forest.write rest
end

/-- The markup of a tree as text. -/
def Tree.serialize (t : Tree) : String := String.ofList t.write

/-- The markup of trees in a row as text. -/
def Forest.serialize (f : Forest) : String := String.ofList (Forest.write f)

end Markup
end HtmlCompose
