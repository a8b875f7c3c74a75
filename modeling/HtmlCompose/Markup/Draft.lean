/-
# Documents that grow along their source

A source asks for one step after another, and each step is done in the document at
once.  A node is created at the next handle and put at the end of the innermost open
node, so the order of the handles is the order of creation.

| step | in the document |
| --- | --- |
| text | joined to a text at the end of the open node, else a new text there |
| leaf | a new node |
| opening | a new node that is open from then on |
| closing | the innermost open element of the name, and all inside of it, are open no longer |

Which steps a source asks for does not depend on the document.
-/
import HtmlCompose.Markup.Document

namespace HtmlCompose
namespace Markup

/-- What a piece of a source asks for. -/
inductive Step where
  | text (s : List Char)
  /-- a node that nothing is put into -/
  | leaf (c : Content)
  | opening (e : Element)
  | closing (name : String)
deriving Repr

/-- The steps that a source asks for, the source starting at a byte offset. -/
def stepsFrom (offset : Nat) (s : List Char) : Except Fault (List Step) :=
  match h : Lexeme.next? s with
  | none => .ok []
  | some (l, rest) =>
    have := Lexeme.next?_length h
    let after := offset + Text.byteLength l.text
    match l.token with
    | some (.text _) => (stepsFrom after rest).map (.text l.text :: ·)
    | some (.comment body) => (stepsFrom after rest).map (.leaf (.comment body) :: ·)
    | some (.doctype text) => (stepsFrom after rest).map (.leaf (.doctype text) :: ·)
    | some (.closeTag name) => (stepsFrom after rest).map (.closing name :: ·)
    | some (.openTag raw) =>
      let tag := OpenTag.ofRaw raw
      if isVoid tag.name || tag.selfClosing then
        (stepsFrom after rest).map (.leaf (.element tag.element) :: ·)
      else if isRawText tag.name then
        match hb : rawBody? tag.name.toList rest with
        | none => .error (.unterminatedRawText tag.name (spanToEnd offset s))
        | some (body, rest') =>
          have : rest'.length ≤ rest.length := by simp [rawBody?_eq_some hb]
          (stepsFrom (after + Text.byteLength body) rest').map fun steps =>
            .opening tag.element :: (if body.isEmpty then steps else .text body :: steps)
      else (stepsFrom after rest).map (.opening tag.element :: ·)
    | none =>
      if (Text.after? ['<', '!', '-', '-'] l.text).isSome then
        .error (.unterminatedComment (spanToEnd offset s))
      else (stepsFrom after rest).map (.text l.text :: ·)
termination_by s.length

/-- A document that is read into. -/
structure Draft where
  document : Document := .empty
  /-- the open elements, from the innermost out -/
  opened : List Handle := []

namespace Draft

/-- The node that nodes are put into. -/
def current (d : Draft) : Handle := d.opened.headD Document.root

/-- Creates a node and puts it at the end of the open one. -/
def add (d : Draft) (c : Content) : Draft × Handle :=
  let (document, h) := d.document.create c
  ({ d with document := document.append d.current h }, h)

/-- Puts text at the end of the open node, joined to a text there. -/
def addText (d : Draft) (s : List Char) : Draft :=
  match (d.document.children d.current).getLast? with
  | some last =>
    match d.document.content last with
    | .text before =>
      { d with document := d.document.setContent last (.text (before ++ String.ofList s)) }
    | _ => (d.add (.text (String.ofList s))).1
  | none => (d.add (.text (String.ofList s))).1

/-- Creates an element and opens it. -/
def push (d : Draft) (e : Element) : Draft :=
  let (d, h) := d.add (.element e)
  { d with opened := h :: d.opened }

/-- Closes up to the innermost open element of a name, if one is open. -/
def close (d : Draft) (name : String) : Draft :=
  match d.opened.findIdx? (d.document.isElement name) with
  | some i => { d with opened := d.opened.drop (i + 1) }
  | none => d

/-- Does one step. -/
def take (d : Draft) : Step → Draft
  | .text s => d.addText s
  | .leaf c => (d.add c).1
  | .opening e => d.push e
  | .closing name => d.close name

end Draft

/-- The document that grows along a source. -/
def Document.grow (source : String) : Except Fault Document :=
  (stepsFrom 0 source.toList).map fun steps => (steps.foldl Draft.take {}).document

end Markup
end HtmlCompose
