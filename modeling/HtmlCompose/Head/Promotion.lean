/-
# A head made in place

A document that has no `head` gets one by edits: below its first `html`, or, where there is none
either, as part of a whole page that is built around what stands at its top.  The nodes at the top
are then moved one by one:

| a node at the top | goes to |
| --- | --- |
| a declaration | nowhere, it stays in front of the new `html` |
| an element that belongs into a head | the end of the new `head` |
| anything else | the end of the new `body` |

This is `Head.ensureHead` as a sequence of edits.
-/
import HtmlCompose.Head.Page
import HtmlCompose.Markup.Document

namespace HtmlCompose
namespace Markup
namespace Document

/-- A node is an element that belongs into a head. -/
def isHeadLevel (d : Document) (h : Handle) : Bool :=
  (d.element? h).any fun e => Head.headLevelNames.any e.is

/-- A node is a declaration. -/
def isDoctype (d : Document) (h : Handle) : Bool := (d.content h).isDoctype

/-- Adds an element without attributes, parent and children. -/
def createElement (d : Document) (name : String) : Document × Handle :=
  d.create (.element ⟨name, []⟩)

/-- Moves a node to the end of the head or of the body; a declaration stays where it is. -/
def sortInto (head body : Handle) (d : Document) (h : Handle) : Document :=
  if d.isDoctype h then d
  else if d.isHeadLevel h then d.append head h
  else d.append body h

/-- Puts a declaration in front of the top unless some nodes have one among them. -/
def ensureDoctype (d : Document) (top : List Handle) : Document :=
  if top.any d.isDoctype then d
  else
    let (d, doctype) := d.create (.doctype "<!DOCTYPE html>")
    d.prepend root doctype

/-- Adds an empty page without a parent, and tells its `html`, its head and its body. -/
def createPage (d : Document) : Document × Handle × Handle × Handle :=
  let (d, html) := d.createElement "html"
  let (d, head) := d.createElement "head"
  let (d, body) := d.createElement "body"
  ((d.append html head).append html body, html, head, body)

/-- Builds a whole page around what stands at the top, and tells its head. -/
def promote (d : Document) : Document × Handle :=
  let top := d.children root
  let (d, html, head, body) := (d.ensureDoctype top).createPage
  ((top.foldl (sortInto head body) d).append root html, head)

/-- Finds the head or makes one, and tells it. -/
def ensureHead (d : Document) : Document × Handle :=
  match d.findElement? root "head" with
  | some head => (d, head)
  | none =>
    match d.findElement? root "html" with
    | some html =>
      let (d, head) := d.createElement "head"
      (d.prepend html head, head)
    | none => d.promote

end Document
end Markup
end HtmlCompose
