/-
# The elements that evaluation comes to

Evaluating a tree comes to an element of it once for each repetition of the element, as long as
the elements above it are kept, each with the data in scope there (`Reaches`).

| element | what it stands for |
| --- | --- |
| in the template | `e`, as it is written |
| repeated | `single e` with each of the `scopes` |
| kept | `evaluated`: filled, without its condition, and bound |

The elements of evaluated trees are exactly these (`holds_meanForest`).
-/
import HtmlCompose.Proofs.Directive.Bindings
import HtmlCompose.Proofs.Directive.Meaning
import HtmlCompose.Proofs.Markup.Parsed

namespace HtmlCompose

open Markup

/-! ### Repetitions -/

namespace Directive

/-- The element without its repetitions. -/
def single (e : Element) : Element :=
  { e with attrs := e.attrs.filter fun a => !a.named repeatName }

/-- The data that each repetition of an element is evaluated with. -/
def scopes (data : Data) (e : Element) : List Data :=
  match _h : e.attr? repeatName with
  | some expr => (loopData data expr).flatMap fun item => scopes item (e.removeAttr repeatName)
  | none => [data]
termination_by e.attrs.length
decreasing_by exact length_removeAttr_lt _h

/-- A repetition of an element is neither left out nor a slot for a value that there is. -/
def Kept (scope : Data) (e : Element) : Prop :=
  admits scope (fillAttributes scope (single e)) = true ∧
    slotText? scope (admitted scope (single e)) = none

/-- What a repetition of an element is evaluated to. -/
def evaluated (imports : ImportTable) (scope : Data) (e : Element) : Element :=
  bindAttributes scope (imports.contains e.name) (admitted scope (single e))

/-- Evaluating a tree comes to one of its elements, with the data in scope there. -/
inductive Reaches : Tree → Data → Element → Data → Prop where
  | top {e kids data scope} : scope ∈ scopes data e → Kept scope e →
    Reaches (.node (.element e) kids) data e scope
  | deeper {e kids data scope t e' scope'} : scope ∈ scopes data e → Kept scope e → t ∈ kids →
    Reaches t scope e' scope' → Reaches (.node (.element e) kids) data e' scope'

/-- An element that is not repeated has the data itself in scope. -/
theorem scopes_of_attr?_eq_none {e : Element} (h : e.attr? repeatName = none) (data : Data) :
    scopes data e = [data] := by
  rw [scopes]
  split
  · next expr h' => exact absurd (h.symm.trans h') (by simp)
  · rfl

/-- Taking a repetition away does not change what is left without repetitions. -/
theorem single_removeAttr (e : Element) : single (e.removeAttr repeatName) = single e := by
  rw [single, single, Element.removeAttr]
  exact congrArg _ (filter_eraseP fun a _ ha => by simp [ha])

/-- An element that is not repeated is left as it is. -/
theorem single_of_attr?_eq_none {e : Element} (h : e.attr? repeatName = none) : single e = e := by
  have hnone : ∀ a ∈ e.attrs, ¬a.named repeatName = true :=
    List.find?_eq_none.1 (Option.map_eq_none_iff.1 h)
  rw [single, List.filter_eq_self.2 fun a ha => by simp [hnone a ha]]

/-- What an element means is what its repetitions mean, one after another. -/
theorem meanElement_eq_flatMap (imports : ImportTable) (below : Data → Forest) (data : Data)
    (e : Element) : meanElement imports below data e =
      (scopes data e).flatMap fun scope => meanSingle imports below scope (single e) := by
  fun_induction scopes data e with
  | case1 data e expr hrepeat ih =>
    rw [meanElement_repeated imports below data hrepeat, List.flatMap_assoc]
    exact List.flatMap_congr fun item _ => by rw [ih, single_removeAttr]
  | case2 data e hrepeat =>
    rw [meanElement_single imports below data hrepeat, List.flatMap_singleton,
      single_of_attr?_eq_none hrepeat]

/-! ### Attributes of a repetition -/

/-- An attribute with its placeholders filled. -/
def filled (scope : Data) (a : Attribute) : Attribute :=
  { a with value := Placeholder.fill false scope a.value }

/-- An admitted element has its attributes filled, but no repetition, and one condition less. -/
theorem attrs_admitted {e : Element} (he : e.Unmarked) (scope : Data) :
    (admitted scope (single e)).attrs =
      ((e.attrs.filter fun a => !a.named repeatName).map (filled scope)).eraseP
        (Attribute.named conditionName) := by
  refine congrArg (List.eraseP _) (List.map_congr_left fun a ha => ?_)
  simp only [filled, he a (List.mem_of_mem_filter ha), Bool.false_eq_true, if_false]

/-- Attributes that are told by their names, and are no repetitions and no conditions, are filled
and stay. -/
theorem filter_admitted {e : Element} (he : e.Unmarked) {scope : Data} {q : Attribute → Bool}
    (hname : ∀ a, q (filled scope a) = q a)
    (h : ∀ a ∈ e.attrs, q a = true → a.named repeatName = false ∧ a.named conditionName = false) :
    (admitted scope (single e)).attrs.filter q = (e.attrs.filter q).map (filled scope) := by
  rw [attrs_admitted he, filter_eraseP, List.filter_map, List.filter_filter]
  · refine congrArg _ (List.filter_congr fun a ha => ?_)
    rw [Function.comp_apply, hname, Bool.and_eq_left_iff_imp]
    exact fun hq => by simp [(h a ha hq).1]
  · intro a ha hcondition
    obtain ⟨b, hb, rfl⟩ := List.mem_map.1 ha
    rw [hname]
    refine Bool.eq_false_iff.2 fun hq => ?_
    exact Bool.false_ne_true ((h b (List.mem_of_mem_filter hb) hq).2.symm.trans hcondition)

/-- Every attribute of an admitted element is a filled one of the element. -/
theorem exists_of_mem_admitted {e : Element} (he : e.Unmarked) {scope : Data} {a : Attribute}
    (h : a ∈ (admitted scope (single e)).attrs) : ∃ b ∈ e.attrs, filled scope b = a := by
  rw [attrs_admitted he] at h
  obtain ⟨b, hb, rfl⟩ := List.mem_map.1 (List.mem_of_mem_eraseP h)
  exact ⟨b, List.mem_of_mem_filter hb, rfl⟩

/-- Nothing is encoded on an admitted element of a template. -/
theorem unmarked_admitted {e : Element} (he : e.Unmarked) (scope : Data) :
    (admitted scope (single e)).Unmarked := by
  intro a ha
  obtain ⟨b, hb, rfl⟩ := exists_of_mem_admitted he ha
  exact he b hb

end Directive

/-! ### Elements of trees -/

namespace Markup.Forest

/-- An element stands somewhere in the trees. -/
def Holds (f : Forest) (e : Element) : Prop := ∃ t ∈ preorder f, t.element? = some e

/-- An element stands at the top of the first tree, below it or in the rest. -/
theorem holds_cons {c : Content} {kids ts : Forest} {e : Element} :
    Holds (.node c kids :: ts) e ↔ c.element? = some e ∨ Holds kids e ∨ Holds ts e := by
  simp only [Holds, preorder, Tree.preorder, List.mem_append, List.mem_cons, or_and_right,
    exists_or, exists_eq_left, or_assoc]
  exact Iff.rfl

/-- No element stands in an empty row. -/
theorem not_holds_nil (e : Element) : ¬Holds [] e := fun ⟨_, h, _⟩ => nomatch h

/-- A node without children that is no element holds none. -/
theorem not_holds_leaf {c : Content} (hc : c.element? = none) (e : Element) :
    ¬Holds [.node c []] e := by
  simp [holds_cons, not_holds_nil, hc]

/-- Two rows hold what one of them holds. -/
theorem holds_append {f g : Forest} {e : Element} : Holds (f ++ g) e ↔ Holds f e ∨ Holds g e := by
  induction f with
  | nil => simp [Holds, preorder]
  | cons t f ih =>
    obtain ⟨c, kids⟩ := t
    rw [List.cons_append, holds_cons, holds_cons, ih, or_assoc, or_assoc]

/-- Rows joined together hold what one of them holds. -/
theorem holds_flatMap {α : Type} {xs : List α} {g : α → Forest} {e : Element} :
    Holds (xs.flatMap g) e ↔ ∃ x ∈ xs, Holds (g x) e := by
  induction xs with
  | nil => simp [Holds, preorder]
  | cons x xs ih => simp [holds_append, ih]

end Markup.Forest

namespace Directive

variable {imports : ImportTable}

/-- What an unrepeated element means holds that element, if it is kept, and what is below it. -/
theorem holds_meanSingle {below : Data → Forest} {scope : Data} {e o : Element} :
    Forest.Holds (meanSingle imports below scope (single e)) o ↔
      Kept scope e ∧ (o = evaluated imports scope e ∨ Forest.Holds (below scope) o) := by
  rw [meanSingle, Kept]
  split
  · rename_i hadmits
    rcases slotText? scope (admitted scope (single e)) with _ | text
    · rw [Tree.ofElement, Forest.holds_cons]
      simp only [hadmits, Forest.not_holds_nil, or_false, and_self, true_and]
      exact or_congr ⟨fun h => (Option.some.inj h).symm, fun h => congrArg some h.symm⟩ Iff.rfl
    · exact iff_of_false (Forest.not_holds_leaf rfl o) fun h => nomatch h.1.2
  · rename_i hadmits
    simp [hadmits, Forest.not_holds_nil]

mutual
/-- The elements of an evaluated tree are those that evaluation comes to. -/
theorem holds_meanTree {t : Tree} (ht : t.Parsed) {data : Data} {o : Element} :
    Forest.Holds (meanTree imports t data) o ↔
      ∃ e scope, Reaches t data e scope ∧ o = evaluated imports scope e := by
  obtain ⟨c, kids⟩ := t
  obtain ⟨hc, hkids⟩ := Tree.parsed_node.1 ht
  have hbelow : ∀ scope, Forest.Holds (meanForest imports kids scope) o ↔ ∃ t ∈ kids, ∃ e scope',
      Reaches t scope e scope' ∧ o = evaluated imports scope' e := fun _ => holds_meanForest hkids
  cases c with
  | element e =>
    rw [meanTree, meanElement_eq_flatMap, Forest.holds_flatMap]
    constructor
    · rintro ⟨scope, hscope, h⟩
      obtain ⟨hkept, rfl | h⟩ := holds_meanSingle.1 h
      · exact ⟨e, scope, .top hscope hkept, rfl⟩
      · obtain ⟨t, ht, e', scope', hreaches, rfl⟩ := (hbelow scope).1 h
        exact ⟨e', scope', .deeper hscope hkept ht hreaches, rfl⟩
    · rintro ⟨e', scope', hreaches, rfl⟩
      cases hreaches with
      | top hscope hkept => exact ⟨_, hscope, holds_meanSingle.2 ⟨hkept, .inl rfl⟩⟩
      | deeper hscope hkept ht hreaches =>
        exact ⟨_, hscope, holds_meanSingle.2
          ⟨hkept, .inr ((hbelow _).2 ⟨_, ht, _, _, hreaches, rfl⟩)⟩⟩
  | fragment => exact hc.formed.elim
  | text s =>
    obtain rfl : kids = [] := hc.formed
    rw [meanTree]
    exact iff_of_false (Forest.not_holds_leaf rfl o) fun ⟨_, _, h, _⟩ => nomatch h
  | comment s =>
    obtain rfl : kids = [] := hc.formed.1
    exact iff_of_false (Forest.not_holds_leaf rfl o) fun ⟨_, _, h, _⟩ => nomatch h
  | doctype s =>
    obtain rfl : kids = [] := hc.formed.1
    exact iff_of_false (Forest.not_holds_leaf rfl o) fun ⟨_, _, h, _⟩ => nomatch h

/-- **The elements of evaluated trees are those that evaluation comes to.** -/
theorem holds_meanForest {f : Forest} (hf : ∀ t ∈ f, t.Parsed) {data : Data} {o : Element} :
    Forest.Holds (meanForest imports f data) o ↔
      ∃ t ∈ f, ∃ e scope, Reaches t data e scope ∧ o = evaluated imports scope e := by
  match f with
  | [] => exact iff_of_false (Forest.not_holds_nil o) fun ⟨_, h, _⟩ => nomatch h
  | t :: ts =>
    obtain ⟨ht, hts⟩ := List.forall_mem_cons.1 hf
    rw [meanForest, Forest.holds_append, holds_meanTree ht, holds_meanForest hts]
    simp only [List.mem_cons, or_and_right, exists_or, exists_eq_left]
end

/-- Every scope of an element can be read back, if the data can. -/
theorem readable_scopes {data : Data} (hdata : data.Readable) {e : Element} :
    ∀ scope ∈ scopes data e, scope.Readable := by
  fun_induction scopes data e with
  | case1 data e expr hrepeat ih =>
    intro scope hscope
    obtain ⟨item, hitem, hscope⟩ := List.mem_flatMap.1 hscope
    exact ih item (readable_loopData hdata hitem) scope hscope
  | case2 data e hrepeat => exact List.forall_mem_singleton.2 hdata

/-- Data in scope can be read back. -/
theorem Reaches.readable {t : Tree} {data scope : Data} {e : Element} (h : Reaches t data e scope)
    (hdata : data.Readable) : scope.Readable := by
  induction h with
  | top hscope _ => exact readable_scopes hdata _ hscope
  | deeper hscope _ _ _ ih => exact ih (readable_scopes hdata _ hscope)

/-- No attribute of a template is encoded. -/
theorem Reaches.unmarked {t : Tree} {data scope : Data} {e : Element} (h : Reaches t data e scope)
    (ht : t.Parsed) : e.Unmarked := by
  induction h with
  | top => exact (Tree.parsed_node.1 ht).1.unmarked _ rfl
  | deeper _ _ hmem _ ih => exact ih ((Tree.parsed_node.1 ht).2 _ hmem)

end Directive
end HtmlCompose
