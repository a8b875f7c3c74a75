/-
# Slots

A component's markup has slots for the content that its caller puts inside the
component's element.

| slot | receives |
| --- | --- |
| without a name, or named `children` | all content that is left |
| named | the first element left whose `slot` attribute is the name |

A slot that receives something is replaced by it; one that receives nothing is
replaced by its own content, in which there may be further slots. Slots are served
in the order of their opening tags, and content that no slot receives is left over.

The callers' content is of any type here: all that counts is which slot it asks for.
-/
import HtmlCompose.Directive.Attribute
import HtmlCompose.Markup.Tree

namespace HtmlCompose

open Markup

/-- Trees of a component's own markup with received content among them. -/
inductive Filled (α : Type) where
  | own (content : Content) (children : List (Filled α))
  | received (content : α)

namespace Slot

variable {α : Type}

/-- What a slot takes. -/
inductive Demand where
  | everything
  | named (name : String)
deriving DecidableEq, Repr

/-- What an element takes if it is a slot. -/
def demand? (c : Content) : Option Demand :=
  c.element?.bind fun e =>
    if e.is Directive.slotTag then
      match e.attr? "name" with
      | none => some .everything
      | some name => some (if name = "children" then .everything else .named name)
    else none

/-- The slot that a tree asks for. -/
def target? (t : Tree) : Option String := t.element?.bind (·.attr? "slot")

/-- What a slot takes of the content, and what is left. -/
def take (target : α → Option String) : Demand → List α → List α × List α
  | .everything, content => (content, [])
  | .named name, content =>
    let asks (a : α) : Bool := target a == some name
    ((content.find? asks).toList, content.eraseP asks)

mutual
/-- A tree with its slots filled, and the content left over. -/
def fillTree (target : α → Option String) (content : List α) : Tree → List (Filled α) × List α
  | .node c kids =>
    match demand? c with
    | some demand =>
      match take target demand content with
      | ([], _) => fillForest target content kids
      | (taken, left) => (taken.map .received, left)
    | none =>
      let (kids, left) := fillForest target content kids
      ([.own c kids], left)

/-- Trees in a row with their slots filled, and the content left over. -/
def fillForest (target : α → Option String) (content : List α) :
    List Tree → List (Filled α) × List α
  | [] => ([], content)
  | t :: ts =>
    let (first, left) := fillTree target content t
    let (others, left) := fillForest target left ts
    (first ++ others, left)
end

end Slot
end HtmlCompose
