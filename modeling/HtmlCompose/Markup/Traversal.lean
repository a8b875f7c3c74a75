/-
# Walks and copies node by node

`Document` describes its walks and copies by the trees that come out of them.  Here they go from
node to node along the links, each with what it has to remember:

| walk | remembers |
| --- | --- |
| down to all nodes below | a stack of the nodes that wait, the next one on top |
| up to a node above | the node it has come to |
| writing | the markup so far, and from which nodes it comes |
| copying | the document that grows, which may be the one that is copied from |

Along links that go round in a circle a walk does not end.  So each has a number of steps that it
may take, or of levels that it may go down, and no result if these are used up.
-/
import HtmlCompose.Markup.Document
import HtmlCompose.Markup.Serialize

namespace HtmlCompose
namespace Markup
namespace Document

/-- Visits the nodes that wait and all nodes below them, and lists them behind those met before. -/
def descend (d : Document) : Nat → List Handle → List Handle → Option (List Handle)
  | _, [], met => some met
  | 0, _ :: _, _ => none
  | n + 1, h :: waiting, met => d.descend n (d.children h ++ waiting) (met ++ [h])

/-- Looks for a node from the current one upwards. -/
def ascend (d : Document) (ancestor : Handle) : Nat → Option Handle → Option Bool
  | _, none => some false
  | 0, some _ => none
  | n + 1, some h => if h = ancestor then some true else d.ascend ancestor n (d.parent? h)

/-- The markup that has been written, and the nodes that were visited for it. -/
structure Writing where
  visited : List Handle := []
  markup : List Char := []

namespace Writing

/-- Comes to a node. -/
def visit (w : Writing) (h : Handle) : Writing := { w with visited := w.visited ++ [h] }

/-- Writes some characters. -/
def put (w : Writing) (s : List Char) : Writing := { w with markup := w.markup ++ s }

end Writing

/-- Writes a node with everything below it. -/
def writeNode (d : Document) : Nat → Writing → Handle → Option Writing
  | 0, _, _ => none
  | n + 1, w, h =>
    let w := w.visit h
    match d.content h with
    | .fragment => (d.children h).foldlM (d.writeNode n) w
    | .text s => some (w.put s.toList)
    | .comment body => some (w.put (writeComment body))
    | .doctype s => some (w.put s.toList)
    | .element e =>
      let w := w.put (writeOpenTag e)
      if isVoid e.name && (d.children h).isEmpty then some w
      else ((d.children h).foldlM (d.writeNode n) w).map (·.put (writeCloseTag e))

/-- Adds a copy of a node, without parent: a new node with the content, and then a copy of each
child at its end.  What is copied is looked up in a view of the document that grows. -/
def copyNode (view : Document → Document) : Nat → Document → Handle → Option (Document × Handle)
  | 0, _, _ => none
  | n + 1, d, h =>
    let (d, copy) := d.create ((view d).content h)
    let copyChild (d : Document) (child : Handle) : Option Document :=
      (copyNode view n d child).map fun (d, c) => d.append copy c
    (((view d).children h).foldlM copyChild d).map fun d => (d, copy)

/-- Adds a copy of a node of the document itself. -/
def cloneNode (n : Nat) (d : Document) (h : Handle) : Option (Document × Handle) :=
  copyNode id n d h

/-- Adds a copy of a node of another document. -/
def adoptNode (other : Document) (n : Nat) (d : Document) (h : Handle) :
    Option (Document × Handle) :=
  copyNode (fun _ => other) n d h

end Document
end Markup
end HtmlCompose
