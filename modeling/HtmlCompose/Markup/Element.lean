/-
# Elements and their attributes

Tag and attribute names are compared without regard to ASCII case. An element may
carry an attribute name twice: reading and changing address the first one.
-/
import HtmlCompose.Text.Search

namespace HtmlCompose
namespace Markup

/-- Elements that never have children or a closing tag. -/
def voidNames : List String :=
  ["area", "base", "br", "col", "embed", "hr", "img", "input", "link", "meta", "source", "track",
    "wbr"]

/-- Elements whose body is raw text rather than markup. -/
def rawTextNames : List String := ["script", "style", "textarea", "title"]

/-- A tag name is that of a void element. -/
def isVoid (name : String) : Bool :=
  voidNames.any (sameName · name)

/-- A tag name is that of an element with raw text. -/
def isRawText (name : String) : Bool :=
  rawTextNames.any (sameName · name)

/-- One attribute of an element. -/
structure Attribute where
  name : String
  value : String
  /-- the value is JSON text written by a bound attribute -/
  encoded : Bool := false
deriving DecidableEq, Repr, Inhabited

/-- A tag name with its attributes in the order of the tag. -/
structure Element where
  name : String
  attrs : List Attribute := []
deriving DecidableEq, Repr, Inhabited

namespace Attribute

/-- The attribute is addressed by a name. -/
def named (name : String) (a : Attribute) : Bool :=
  sameName a.name name

end Attribute

namespace Element

/-- The element has a tag name. -/
def is (e : Element) (name : String) : Bool :=
  sameName e.name name

/-- The value of the first attribute of a name. -/
def attr? (e : Element) (name : String) : Option String :=
  (e.attrs.find? (Attribute.named name)).map (·.value)

/-- The element has an attribute of a name. -/
def hasAttr (e : Element) (name : String) : Bool :=
  e.attrs.any (Attribute.named name)

/-- The attributes with the first one of a name changed to a value, or with a new last one. -/
def put (name value : String) (encoded : Bool) : List Attribute → List Attribute
  | [] => [⟨name, value, encoded⟩]
  | a :: rest =>
    if a.named name then ⟨a.name, value, encoded⟩ :: rest else a :: put name value encoded rest

/-- Sets a plain attribute. -/
def setAttr (e : Element) (name value : String) : Element :=
  { e with attrs := put name value false e.attrs }

/-- Sets an attribute whose value is JSON text. -/
def setEncodedAttr (e : Element) (name json : String) : Element :=
  { e with attrs := put name json true e.attrs }

/-- Removes the first attribute of a name. -/
def removeAttr (e : Element) (name : String) : Element :=
  { e with attrs := e.attrs.eraseP (Attribute.named name) }

/-- The first attribute of a name. -/
def find? (e : Element) (name : String) : Option Attribute :=
  e.attrs.find? (Attribute.named name)

end Element
end Markup
end HtmlCompose
