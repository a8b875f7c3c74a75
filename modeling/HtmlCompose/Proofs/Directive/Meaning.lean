/-
# What directives mean

The meaning of a tree is a row of trees that depends on the data and the imports only.
It is told without a document and without a bound, by recursion on the tree, and for an
element by recursion on the directives that it still has.

| node | meaning |
| --- | --- |
| text | the text with its placeholders filled |
| repeated element | the meanings of the element without the repetition, for each item |
| element that is not admitted | nothing |
| slot for a value that there is | the value as a text |
| any other element | the element, bound, around the meanings of the trees below it |
| anything else | itself |
-/
import HtmlCompose.Directive.Evaluate

namespace HtmlCompose

open Markup

namespace Directive

/-! ### Elements -/

/-- Taking an attribute away that is there leaves fewer. -/
theorem length_removeAttr_lt {e : Element} {name value : String} (h : e.attr? name = some value) :
    (e.removeAttr name).attrs.length < e.attrs.length := by
  obtain ⟨a, ha, -⟩ := Option.map_eq_some_iff.1 h
  have hmem : a ∈ e.attrs := List.mem_of_find?_eq_some ha
  have hlength := List.length_eraseP_of_mem hmem (List.find?_some ha)
  have hpos := List.length_pos_of_mem hmem
  rw [Element.removeAttr, hlength]
  omega

/-- The element once its placeholders are filled and its condition holds. -/
def admitted (data : Data) (e : Element) : Element :=
  (fillAttributes data e).removeAttr conditionName

/-- What an element that is not repeated means, given the meanings of the trees below it. -/
def meanSingle (imports : ImportTable) (below : Data → Forest) (data : Data) (e : Element) :
    Forest :=
  if admits data (fillAttributes data e) then
    match slotText? data (admitted data e) with
    | some text => [.ofText text]
    | none =>
      [.ofElement (bindAttributes data (imports.contains e.name) (admitted data e)) (below data)]
  else []

/-- What an element means, given the meanings of the trees below it. -/
def meanElement (imports : ImportTable) (below : Data → Forest) (data : Data) (e : Element) :
    Forest :=
  match _h : e.attr? repeatName with
  | some expr =>
    (loopData data expr).flatMap fun item =>
      meanElement imports below item (e.removeAttr repeatName)
  | none => meanSingle imports below data e
termination_by e.attrs.length
decreasing_by exact length_removeAttr_lt _h

/-- A repeated element means what it means without the repetition, for each item. -/
theorem meanElement_repeated (imports : ImportTable) (below : Data → Forest) (data : Data)
    {e : Element} {expr : String} (h : e.attr? repeatName = some expr) :
    meanElement imports below data e = (loopData data expr).flatMap fun item =>
      meanElement imports below item (e.removeAttr repeatName) := by
  rw [meanElement]
  split
  · next expr' h' =>
    obtain rfl := Option.some.inj (h.symm.trans h')
    rfl
  · next h' => exact absurd (h.symm.trans h') (by simp)

/-- An element that is not repeated means what a single one does. -/
theorem meanElement_single (imports : ImportTable) (below : Data → Forest) (data : Data)
    {e : Element} (h : e.attr? repeatName = none) :
    meanElement imports below data e = meanSingle imports below data e := by
  rw [meanElement]
  split
  · next expr h' => exact absurd (h.symm.trans h') (by simp)
  · rfl

/-! ### Trees -/

mutual
/-- What a tree means with data. -/
def meanTree (imports : ImportTable) : Tree → Data → Forest
  | .node (.text s) kids, data => [.node (.text (Placeholder.fill true data s)) kids]
  | .node (.element e) kids, data => meanElement imports (meanForest imports kids) data e
  | .node c kids, _ => [.node c kids]

/-- What trees in a row mean with data. -/
def meanForest (imports : ImportTable) : List Tree → Data → Forest
  | [], _ => []
  | t :: ts, data => meanTree imports t data ++ meanForest imports ts data
end

/-- Trees in a row mean what each of them means, one after another. -/
theorem meanForest_eq_flatMap (imports : ImportTable) (f : Forest) (data : Data) :
    meanForest imports f data = f.flatMap (meanTree imports · data) := by
  induction f with
  | nil => rfl
  | cons t f ih => rw [meanForest, ih, List.flatMap_cons]

end Directive
end HtmlCompose
