/-
# Markup trees

A tree is a content with the trees below it. A fragment has no markup of its own;
text is kept as it stands in markup, so that character references in it are not
decoded. A document's tree is the list of the trees below its root.
-/
import HtmlCompose.Markup.Element

namespace HtmlCompose
namespace Markup

/-- What a node is, apart from its place in a tree. -/
inductive Content where
  /-- a container without markup of its own -/
  | fragment
  | element (e : Element)
  /-- text as it stands in markup -/
  | text (s : String)
  /-- the body between `<!--` and `-->` -/
  | comment (body : String)
  /-- a whole declaration such as `<!DOCTYPE html>` -/
  | doctype (text : String)
deriving DecidableEq, Repr, Inhabited

/-- The element of a content that is one. -/
def Content.element? : Content → Option Element
  | .element e => some e
  | _ => none

/-- The content is a text. -/
def Content.isText : Content → Bool
  | .text _ => true
  | _ => false

/-- The content is a declaration. -/
def Content.isDoctype : Content → Bool
  | .doctype _ => true
  | _ => false

/-- A node with everything below it. -/
inductive Tree where
  | node (content : Content) (children : List Tree)
deriving Repr, Inhabited

/-- Trees in a row: the children of one node. -/
abbrev Forest := List Tree

namespace Tree

/-- The content of the topmost node. -/
def content : Tree → Content
  | node c _ => c

/-- The trees below the topmost node. -/
def children : Tree → Forest
  | node _ kids => kids

/-- A text without anything below it. -/
def ofText (s : String) : Tree := node (.text s) []

/-- An element with the trees below it. -/
def ofElement (e : Element) (kids : Forest) : Tree := node (.element e) kids

/-- The element at the top. -/
def element? (t : Tree) : Option Element := t.content.element?

/-- The topmost node is an element with a tag name. -/
def isElement (t : Tree) (name : String) : Bool :=
  t.element?.any (·.is name)

end Tree

mutual
/-- A tree and all subtrees below it, each before those below it: the order of the opening
tags. -/
def Tree.preorder : Tree → List Tree
  | .node c kids => .node c kids :: Forest.preorder kids

/-- All subtrees of trees in a row, each before those below it. -/
def Forest.preorder : List Tree → List Tree
  | [] => []
  | t :: rest => t.preorder ++ Forest.preorder rest
end

namespace Forest

/-- The first element with a tag name, in preorder. -/
def find? (f : Forest) (name : String) : Option Tree :=
  (preorder f).find? (·.isElement name)

/-- The texts of all nodes, one after another. -/
def textContent (f : Forest) : String :=
  String.join ((preorder f).map fun t => match t.content with | .text s => s | _ => "")

end Forest
end Markup
end HtmlCompose
