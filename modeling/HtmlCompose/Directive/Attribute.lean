/-
# Directives written as attributes

| attribute | meaning |
| --- | --- |
| `use-for="item in items"` | the element once for each item of a list |
| `use-if="path"`, `use-if="!path"` | the element only if the condition holds |
| `:name="path"`, `:name="!path"` | the attribute `name` with the value at the path |
| `<slot name="path">` | the value at the path in the place of the element |

A bound attribute whose value does not hold is left out. On an element that stands
for an imported component the value is written as JSON, so that the component gets
the value itself; elsewhere as plain text.
-/
import HtmlCompose.Data.Path
import HtmlCompose.Markup.Serialize
import HtmlCompose.Placeholder.Render

namespace HtmlCompose

open Markup

namespace Directive

/-- The attribute that repeats an element. -/
def repeatName : String := "use-for"

/-- The attribute with the condition of an element. -/
def conditionName : String := "use-if"

/-- The tag of elements that are places for content. -/
def slotTag : String := "slot"

/-- The loop name and the path of `item in items`. -/
def loop? (expr : String) : Option (String × String) :=
  match Text.cutAt [' ', 'i', 'n', ' '] (Text.trim expr.toList) with
  | some (item, collection) =>
    let item := Text.trim item
    let collection := Text.trim collection
    if item.isEmpty || collection.isEmpty then none
    else some (String.ofList item, String.ofList collection)
  | none => none

/-- The data for each repetition of an element: one for each item, and none when the expression is
malformed or its path leads to no list. -/
def loopData (data : Data) (expr : String) : List Data :=
  match loop? expr with
  | some (item, collection) =>
    match data.lookup collection with
    | some (.array values) => values.map fun v => Record.insert item v data
    | _ => []
  | none => []

/-- The name that a bound attribute sets, if the attribute is bound: what follows its colon. -/
def boundName? (name : String) : Option String :=
  match name.toList with
  | ':' :: c :: rest => some (String.ofList (c :: rest))
  | _ => none

/-- The value that a bound attribute gets, if it gets one. -/
def boundValue? (data : Data) (expr : String) : Option Json :=
  match Data.negated? expr with
  | some path => if data.truthy path then none else some (.bool true)
  | none => (data.lookup expr).filter Json.holds

/-- The effect of one bound attribute: it goes, and its target is set or goes too. -/
def bindOne (data : Data) (isInstance : Bool) (e : Element) (bound : Attribute) : Element :=
  let e := e.removeAttr bound.name
  match boundName? bound.name with
  | none => e
  | some target =>
    match boundValue? data bound.value with
    | none => e.removeAttr target
    | some value =>
      if isInstance then e.setEncodedAttr target value.print else e.setAttr target value.toText

/-- The element with its bound attributes carried out, in their order. -/
def bindAttributes (data : Data) (isInstance : Bool) (e : Element) : Element :=
  (e.attrs.filter fun a => (boundName? a.name).isSome).foldl (bindOne data isInstance) e

/-- The element with the placeholders in its plain attribute values filled. -/
def fillAttributes (data : Data) (e : Element) : Element :=
  { e with attrs := e.attrs.map fun a =>
      if a.encoded then a else { a with value := Placeholder.fill false data a.value } }

/-- The condition of an element holds, or it has none. -/
def admits (data : Data) (e : Element) : Bool :=
  (e.attr? conditionName).all data.conditionHolds

/-- The text that takes the place of a slot: the value at the path that it is named by, escaped. -/
def slotText? (data : Data) (e : Element) : Option String :=
  if e.is slotTag then
    match (e.attr? "name").bind data.lookup with
    | some value => if value.isNull then none else some (escapeText value.toText)
    | none => none
  else none

end Directive
end HtmlCompose
