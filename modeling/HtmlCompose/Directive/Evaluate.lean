/-
# Evaluating a document in place

Evaluation replaces directives by what they mean. On one element the order is:
repetition, placeholders in attributes, condition, slot, the nodes below, bound
attributes. Of several conditions on an element the first one counts and goes, and
what bound attributes set stays, even under the name of a directive.

An element that is repeated is copied once for each item; a copy is put before the
element, has one directive less and is evaluated as a whole before the next one is
made. In the end the element itself is taken out. So evaluation goes at most as
deep as there are nodes and attributes below the root.
-/
import HtmlCompose.Component.ImportTable
import HtmlCompose.Directive.Attribute
import HtmlCompose.Markup.Document

namespace HtmlCompose
namespace Markup

mutual
/-- The number of nodes and attributes of a tree. -/
def Tree.weight : Tree → Nat
  | .node c kids => 1 + ((c.element?.map (·.attrs.length)).getD 0) + Forest.weight kids

/-- The number of nodes and attributes of trees in a row. -/
def Forest.weight : List Tree → Nat
  | [] => 0
  | t :: rest => Tree.weight t + Forest.weight rest
end

namespace Document

open Directive

/-- The document with a node and all that is below it evaluated, down to a depth. -/
def evaluateNode (imports : ImportTable) : Nat → Data → Document → Handle → Document
  | 0, _, d, _ => d
  | n + 1, data, d, h =>
    match d.content h with
    | .text s => d.setContent h (.text (Placeholder.fill true data s))
    | .element e =>
      match e.attr? repeatName with
      | some expr =>
        let d := d.setContent h (.element (e.removeAttr repeatName))
        let d := (loopData data expr).foldl (fun d item =>
          let (d, copy) := d.cloneSubtree h
          evaluateNode imports n item (d.insertBefore h copy) copy) d
        d.detach h
      | none =>
        let e := fillAttributes data e
        if admits data e then
          let e := e.removeAttr conditionName
          let d := d.setContent h (.element e)
          match slotText? data e with
          | some text =>
            let (d, t) := d.create (.text text)
            d.replaceWith h [t]
          | none =>
            let d := (d.children h).foldl (evaluateNode imports n data) d
            d.setContent h (.element (bindAttributes data (imports.contains e.name) e))
        else d.detach h
    | _ => d

/-- The document with all directives below its root carried out. -/
def evaluate (imports : ImportTable) (data : Data) (d : Document) : Document :=
  (d.children root).foldl (evaluateNode imports (Forest.weight d.forest) data) d

end Document
end Markup
end HtmlCompose
