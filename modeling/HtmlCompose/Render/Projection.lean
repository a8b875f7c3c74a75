/-
# Slots filled in place

A component's markup stands below a holder, a node without a parent, and the element that
calls for the component stands elsewhere in the same document.  The slots below the holder
are listed once and served in the order of the list:

| the slot | is replaced by |
| --- | --- |
| is not below the holder any more | nothing; it stays where it is |
| finds something among the caller's children | what it finds |
| finds nothing there | its own children |

What it finds is moved, so that the slots after it do not find it again.  This is
`Slot.fillForest` as a sequence of edits.
-/
import HtmlCompose.Markup.Document
import HtmlCompose.Render.Slot

namespace HtmlCompose
namespace Markup
namespace Document

/-- Puts copies of trees below a new node without a parent, their holder. -/
def hold (d : Document) (markup : Forest) : Document × Handle :=
  let (d, holder) := d.create .fragment
  (d.adoptInto holder markup, holder)

/-- The slot that a node asks for. -/
def slotTarget? (d : Document) (h : Handle) : Option String :=
  (d.element? h).bind (·.attr? "slot")

/-- What a slot finds among the children of the caller: all of them, or the first one that asks for
the slot's name. -/
def slotContent (d : Document) (caller slot : Handle) : List Handle :=
  match (d.element? slot).bind (·.attr? "name") with
  | none => d.children caller
  | some name =>
    if name = "children" then d.children caller
    else ((d.children caller).find? fun c => d.slotTarget? c == some name).toList

/-- Serves one slot, and notes which of the caller's children have found a place. -/
def serveSlot (holder caller : Handle) (state : Document × List Handle) (slot : Handle) :
    Document × List Handle :=
  let (d, projected) := state
  if d.isWithin slot holder then
    match d.slotContent caller slot with
    | [] => (d.replaceWith slot (d.children slot), projected)
    | content => (d.replaceWith slot content, projected ++ content)
  else state

/-- Moves the caller's children into the slots below the holder, and tells which ones. -/
def projectSlots (d : Document) (holder caller : Handle) : Document × List Handle :=
  (d.findElements holder Directive.slotTag).foldl (serveSlot holder caller) (d, [])

end Document
end Markup
end HtmlCompose
