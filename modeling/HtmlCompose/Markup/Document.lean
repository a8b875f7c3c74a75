/-
# Documents that are edited in place

A document keeps its nodes in an array; a handle is a position there and stays
valid for good. Node `0` is the root, a fragment. Every node knows its parent and
its children. Taking a node out of the tree unlinks it from its parent, and it
keeps what is below it.

The tree of a node is the view that everything else is described by: `tree`, and
`forest` for all that is below the root. Walks take as many steps as there are
nodes at most, which is enough as long as no node lies below itself.
-/
import HtmlCompose.Markup.Parse

namespace HtmlCompose
namespace Markup

/-- The position of a node in its document. -/
abbrev Handle := Nat

/-- A content with its links. -/
structure Node where
  content : Content
  parent : Option Handle := none
  children : List Handle := []
deriving Repr, Inhabited

/-- Nodes by handle. -/
structure Document where
  nodes : Array Node
deriving Repr

namespace Document

/-- A document with nothing but its root. -/
def empty : Document := ⟨#[⟨.fragment, none, []⟩]⟩

instance : Inhabited Document := ⟨empty⟩

/-- The handle of the root. -/
def root : Handle := 0

/-- The number of nodes, linked or not. -/
def size (d : Document) : Nat := d.nodes.size

/-- The node of a handle; an empty fragment if there is none. -/
def node (d : Document) (h : Handle) : Node :=
  d.nodes.getD h ⟨.fragment, none, []⟩

/-- What a node is. -/
def content (d : Document) (h : Handle) : Content := (d.node h).content

/-- The node that a node is a child of. -/
def parent? (d : Document) (h : Handle) : Option Handle := (d.node h).parent

/-- The nodes directly below a node, in order. -/
def children (d : Document) (h : Handle) : List Handle := (d.node h).children

/-- The element at a node that is one. -/
def element? (d : Document) (h : Handle) : Option Element := (d.content h).element?

/-- The node is an element with a tag name. -/
def isElement (d : Document) (name : String) (h : Handle) : Bool :=
  (d.element? h).any (·.is name)

/-- The document with one node changed. -/
def modify (d : Document) (h : Handle) (f : Node → Node) : Document :=
  ⟨d.nodes.modify h f⟩

/-- The document with the content of one node replaced. -/
def setContent (d : Document) (h : Handle) (c : Content) : Document :=
  d.modify h fun n => { n with content := c }

/-- Adds a node without parent and children. -/
def create (d : Document) (c : Content) : Document × Handle :=
  let h := d.nodes.size
  (⟨d.nodes.push ⟨c, none, []⟩⟩, h)

/-! ### Linking -/

/-- Unlinks a node from its parent; it keeps what is below it. -/
def detach (d : Document) (h : Handle) : Document :=
  match d.parent? h with
  | none => d
  | some p =>
    (d.modify h fun n => { n with parent := none }).modify p fun n =>
      { n with children := n.children.filter (· != h) }

/-- Puts a node, wherever it was, under a parent at a place among its children. -/
def link (d : Document) (parent h : Handle) (place : List Handle → List Handle) : Document :=
  (d.modify parent fun n => { n with children := place n.children }).modify h fun n =>
    { n with parent := some parent }

/-- Moves a node to the end of a parent's children. -/
def append (d : Document) (parent h : Handle) : Document :=
  (d.detach h).link parent h (· ++ [h])

/-- Moves a node to the start of a parent's children. -/
def prepend (d : Document) (parent h : Handle) : Document :=
  (d.detach h).link parent h (h :: ·)

/-- A list with an item put just before another one, or at the end if that one is missing. -/
def placeBefore (reference h : Handle) (l : List Handle) : List Handle :=
  l.takeWhile (· != reference) ++ h :: l.dropWhile (· != reference)

/-- Moves a node to just before a reference. The node is unlinked first, and stays so when the
reference has no parent. -/
def insertBefore (d : Document) (reference h : Handle) : Document :=
  if reference = h then d
  else
    let d := d.detach h
    match d.parent? reference with
    | none => d
    | some p => d.link p h (placeBefore reference h)

/-- Puts nodes in the place of a node, in order, and unlinks that node. -/
def replaceWith (d : Document) (h : Handle) (replacements : List Handle) : Document :=
  (replacements.foldl (fun d r => d.insertBefore h r) d).detach h

/-! ### Walking -/

/-- The tree of a node, cut off at a depth. -/
def treeWithin (d : Document) : Nat → Handle → Tree
  | 0, h => .node (d.content h) []
  | n + 1, h => .node (d.content h) ((d.children h).map (d.treeWithin n))

/-- The tree of a node. -/
def tree (d : Document) (h : Handle) : Tree := d.treeWithin d.size h

/-- The trees below the root. -/
def forest (d : Document) : Forest := (d.tree root).children

/-- The nodes below a node in preorder, down to a depth. -/
def descendantsWithin (d : Document) : Nat → Handle → List Handle
  | 0, _ => []
  | n + 1, h => (d.children h).flatMap fun c => c :: d.descendantsWithin n c

/-- The nodes below a node, each before those below it. -/
def descendants (d : Document) (h : Handle) : List Handle := d.descendantsWithin d.size h

/-- A node is met on the way up from another, within a number of steps. -/
def isWithinSteps (d : Document) (ancestor : Handle) : Nat → Handle → Bool
  | 0, _ => false
  | n + 1, h =>
    match d.parent? h with
    | none => false
    | some p => p == ancestor || d.isWithinSteps ancestor n p

/-- A node lies somewhere below another. -/
def isWithin (d : Document) (h ancestor : Handle) : Bool := d.isWithinSteps ancestor d.size h

/-- The elements below a node that have a tag name, in preorder. -/
def findElements (d : Document) (h : Handle) (name : String) : List Handle :=
  (d.descendants h).filter (d.isElement name)

/-- The first element below a node that has a tag name. -/
def findElement? (d : Document) (h : Handle) (name : String) : Option Handle :=
  (d.descendants h).find? (d.isElement name)

/-- The texts at and below a node, one after another. -/
def textContent (d : Document) (h : Handle) : String :=
  Forest.textContent [d.tree h]

/-! ### Copying -/

mutual
/-- Adds a copy of a tree, without parent, numbered in preorder. -/
def adopt (d : Document) : Tree → Document × Handle
  | .node c kids =>
    let (d, h) := d.create c
    (adoptInto d h kids, h)

/-- Adds copies of trees at the end of a parent's children. -/
def adoptInto (d : Document) (parent : Handle) : List Tree → Document
  | [] => d
  | t :: ts =>
    let (d, h) := adopt d t
    adoptInto (d.append parent h) parent ts
end

/-- Adds a copy of a node with everything below it, without parent. -/
def cloneSubtree (d : Document) (h : Handle) : Document × Handle := d.adopt (d.tree h)

/-- The document of some trees, numbered in preorder. -/
def ofForest (f : Forest) : Document := empty.adoptInto root f

/-- The document of a source. -/
def parse (source : String) : Except Fault Document :=
  (Markup.parse source).map ofForest

end Document
end Markup
end HtmlCompose
