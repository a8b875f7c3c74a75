/-
# What is left of directives

Two passes over the attributes of an element take directives away.

| pass | what goes | what stays |
| --- | --- | --- |
| `bindAttributes` | bound attributes | what is neither bound nor set (`untouched`) |
| `evaluated` | repetitions, a condition and bound attributes | further conditions, and what is set |

Bound attributes are exact: one that nothing else interferes with is gone afterwards, and its
target is there if and only if its condition holds (`bindAttributes_settled`).

An evaluated element may have a directive after all, and there are two reasons for that only.  Of
several conditions just the first one is looked at and goes, and a bound attribute may set an
attribute with the name of a directive.  So no directive is left of a template that is `Regular`
(`directives_removed`), and `directives_left` has an example for each way not to be.
-/
import HtmlCompose.Proofs.Directive.Elements
import HtmlCompose.Proofs.Directive.Inert

namespace HtmlCompose

open Markup

namespace Directive

/-! ### Bound attributes are exact -/

/-- An attribute is neither bound nor the target of a bound one. -/
def untouched (attrs : List Attribute) (a : Attribute) : Bool :=
  (boundName? a.name).isNone &&
    attrs.all fun b => (boundName? b.name).all fun target => !sameName a.name target

/-- What a bound attribute leaves of itself and of its target. -/
structure Settled (scope : Data) (isInstance : Bool) (b : Attribute) (target : String)
    (after : List Attribute) : Prop where
  /-- it is gone -/
  gone : after.filter (Attribute.named b.name) = []
  /-- its target is there, once and with the value at the path, if its condition holds -/
  target : ∃ value?, Promised scope b.value value? ∧
    after.filter (Attribute.named target) = value?.toList.map fun v =>
      ⟨target, if isInstance then v.print else v.toText, isInstance⟩

variable {scope : Data} {isInstance : Bool} {e : Element}

/-- Nothing that is untouched is addressed. -/
theorem untouched_of_addresses {a b : Attribute} (hb : b ∈ e.attrs)
    (hbound : (boundName? b.name).isSome) (h : addresses a.name b = true) :
    untouched e.attrs a = false := by
  refine Bool.eq_false_iff.2 fun hfree => ?_
  obtain ⟨hplain, htargets⟩ := Bool.and_eq_true_iff.1 hfree
  obtain ⟨target, htarget⟩ := Option.isSome_iff_exists.1 hbound
  rcases Bool.or_eq_true_iff.1 h with hown | hset
  · rw [← Option.not_isSome, ← isSome_boundName?_congr hown, hbound] at hplain
    cases hplain
  · have hapart := List.all_eq_true.1 htargets b hb
    rw [htarget, Option.any_some, sameName_comm] at hset
    rw [htarget, Option.all_some, hset] at hapart
    cases hapart

/-- A bound attribute that is alone settles its target, and goes. -/
theorem settled_of_alone {b : Attribute} {target : String}
    (hbound : boundName? b.name = some target) (halone : Alone e.attrs b target) :
    Settled scope isInstance b target (bindAttributes scope isInstance e).attrs := by
  constructor
  · refine filter_bindAttributes_own (by rw [hbound]; rfl) fun a ha other hother => ?_
    refine Bool.eq_false_iff.2 fun hsame => ?_
    have haddresses : addresses b.name a = true := by
      rw [addresses, hother, Option.any_some, sameName_comm, hsame, Bool.or_true]
    obtain rfl := halone.eq_of_addresses ha (.inr haddresses)
    obtain rfl := Option.some.inj (hbound.symm.trans hother)
    exact Bool.false_ne_true ((sameName_boundName? hbound).symm.trans hsame)
  · exact ⟨_, promised_boundValue? scope b.value, filter_bindAttributes_target hbound halone⟩

/-- **Bound attributes do what they say, and nothing else.**  The attributes that are neither bound
nor set stay as they are, in their order.  A bound attribute that no other attribute
interferes with is gone; what it sets is there, once, if and only if its condition holds, and then
it is the text of the value, or on an instance its JSON text with the mark for that. -/
theorem bindAttributes_settled (imports : ImportTable) (scope : Data) (e : Element) :
    let isInstance := imports.contains e.name
    let after := bindAttributes scope isInstance e
    after.name = e.name ∧
      after.attrs.filter (untouched e.attrs) = e.attrs.filter (untouched e.attrs) ∧
      ∀ b target, boundName? b.name = some target → Alone e.attrs b target →
        Settled scope isInstance b target after.attrs := by
  intro isInstance after
  refine ⟨name_bindAttributes _ _ _, ?_, fun b target => settled_of_alone⟩
  refine filter_foldl_bindOne (fun b hb a haddresses => ?_) e
  exact untouched_of_addresses (List.mem_of_mem_filter hb) (List.mem_filter.1 hb).2 haddresses

/-- An instance with bound attributes that get in each other's way, around one that is alone. -/
def crowdedElement : Element :=
  ⟨"x-card", [⟨":a", "v", false⟩, ⟨"A", "old", false⟩, ⟨":list", "v", false⟩, ⟨"id", "i", false⟩,
    ⟨":A", "!v", false⟩, ⟨":gone", "!v", false⟩]⟩

/-- The hypotheses are satisfiable. -/
theorem bindAttributes_settled_crowded :
    let imports : ImportTable := [("x-card", "card")]
    let scope : Data := [("v", .array [.bool true])]
    let after := (bindAttributes scope (imports.contains crowdedElement.name) crowdedElement).attrs
    after.filter (untouched crowdedElement.attrs) = [⟨"id", "i", false⟩] ∧
      after.filter (Attribute.named ":list") = [] ∧
      after.filter (Attribute.named "list") = [⟨"list", "[true]", true⟩] ∧
      after.filter (Attribute.named "gone") = [] := by
  intro imports scope after
  obtain ⟨-, hframe, hsettled⟩ := bindAttributes_settled imports scope crowdedElement
  have hlist := hsettled ⟨":list", "v", false⟩ "list" (by decide +kernel)
    (by rw [Alone]; decide +kernel)
  have hgone := hsettled ⟨":gone", "!v", false⟩ "gone" (by decide +kernel)
    (by rw [Alone]; decide +kernel)
  obtain ⟨shown?, ⟨hholds, hvalue⟩, htarget⟩ := hlist.target
  obtain ⟨hidden?, ⟨hfails, -⟩, habsent⟩ := hgone.target
  obtain ⟨v, rfl⟩ := Option.isSome_iff_exists.1 (hholds.trans (by decide +kernel))
  obtain rfl : Json.array [.bool true] = v := Option.some.inj (hvalue v rfl)
  obtain rfl : hidden? = none := Option.not_isSome_iff_eq_none.1 (by rw [hfails]; decide +kernel)
  exact ⟨hframe.trans (by decide +kernel), hlist.gone, htarget.trans (by decide +kernel), habsent⟩

/-! ### Directives of an evaluated element -/

/-- A name is that of a directive: a repetition, a condition or a bound attribute. -/
def isDirective (name : String) : Bool :=
  sameName name repeatName || sameName name conditionName || (boundName? name).isSome

/-- An element has one condition at most, and none of its bound attributes sets a directive. -/
structure Regular (e : Element) : Prop where
  condition : e.attrs.countP (Attribute.named conditionName) ≤ 1
  bound : ∀ b ∈ e.attrs, ∀ target ∈ boundName? b.name, isDirective target = false

/-- Of two names that are the same, both name directives or none does. -/
theorem isDirective_congr {name other : String} (h : sameName name other = true) :
    isDirective name = isDirective other := by
  rw [isDirective, isDirective, sameName_congr h, sameName_congr h, isSome_boundName?_congr h]

/-- What is no directive is no repetition, no condition and not bound. -/
theorem isDirective_eq_false {name : String} (h : isDirective name = false) :
    sameName name repeatName = false ∧ sameName name conditionName = false ∧
      boundName? name = none := by
  rw [isDirective, Bool.or_eq_false_iff, Bool.or_eq_false_iff] at h
  exact ⟨h.1.1, h.1.2, Option.isNone_iff_eq_none.1 (Option.isSome_eq_false_iff.1 h.2)⟩

/-- No bound attribute of an element sets a name. -/
def Unset (e : Element) (name : String) : Prop :=
  ∀ b ∈ e.attrs, ∀ target ∈ boundName? b.name, sameName name target = false

/-- The bound attributes of a regular element set no directive. -/
theorem Regular.unset (h : Regular e) {name : String} (hname : isDirective name = true) :
    Unset e name := by
  intro b hb target htarget
  refine Bool.eq_false_iff.2 fun hsame => Bool.false_ne_true ?_
  rw [← h.bound b hb target htarget, ← isDirective_congr hsame, hname]

/-- Before its bound attributes are carried out, a kept element has lost all repetitions. -/
theorem filter_admitted_repeat (he : e.Unmarked) (scope : Data) {name : String}
    (hname : sameName name repeatName = true) :
    (admitted scope (single e)).attrs.filter (Attribute.named name) = [] := by
  rw [attrs_admitted he]
  refine List.filter_eq_nil_iff.2 fun a ha hnamed => ?_
  obtain ⟨b, hb, rfl⟩ := List.mem_map.1 (List.mem_of_mem_eraseP ha)
  have hother := (List.mem_filter.1 hb).2
  rw [← named_congr hname, show b.named name = true from hnamed] at hother
  cases hother

/-- It has lost its first condition. -/
theorem filter_admitted_condition (he : e.Unmarked) (scope : Data) {name : String}
    (hname : sameName name conditionName = true) :
    (admitted scope (single e)).attrs.filter (Attribute.named name) =
      ((e.attrs.filter (Attribute.named name)).map (filled scope)).tail := by
  rw [attrs_admitted he, filter_named_eraseP (by rwa [sameName_comm]), List.filter_map,
    List.filter_filter]
  refine congrArg (fun as => (List.map (filled scope) as).tail) (List.filter_congr fun a _ => ?_)
  show (a.named name && !a.named repeatName) = a.named name
  rw [Bool.and_eq_left_iff_imp]
  intro hnamed
  have hcondition : sameName a.name conditionName = true := (named_congr hname a).symm.trans hnamed
  rw [Attribute.named, sameName_congr hcondition]
  decide

/-- **How many directives of a name an evaluated element has**, if no bound attribute sets any:
all conditions but the first one, and none of the others. -/
theorem countP_evaluated (he : e.Unmarked) (imports : ImportTable) (scope : Data) {name : String}
    (hname : isDirective name = true) (hunset : Unset e name) :
    (evaluated imports scope e).attrs.countP (Attribute.named name) =
      if sameName name conditionName then e.attrs.countP (Attribute.named name) - 1 else 0 := by
  have hunset' : ∀ b ∈ (admitted scope (single e)).attrs, ∀ target,
      boundName? b.name = some target → sameName name target = false := by
    intro b hb target htarget
    obtain ⟨c, hc, rfl⟩ := exists_of_mem_admitted he hb
    exact hunset c hc target htarget
  rw [evaluated, List.countP_eq_length_filter, List.countP_eq_length_filter]
  rcases hbound : (boundName? name).isSome with _ | _
  · have hkept : ∀ b ∈ (admitted scope (single e)).attrs, (boundName? b.name).isSome →
        addresses name b = false := by
      intro b hb hb'
      obtain ⟨target, htarget⟩ := Option.isSome_iff_exists.1 hb'
      rw [addresses, htarget, Option.any_some, sameName_comm target, hunset' b hb target htarget,
        Bool.or_false]
      refine Bool.eq_false_iff.2 fun hown => ?_
      rw [isSome_boundName?_congr hown, hbound] at hb'
      cases hb'
    rw [filter_bindAttributes hkept]
    rcases hcondition : sameName name conditionName with _ | _
    · rw [isDirective, hcondition, hbound, Bool.or_false, Bool.or_false] at hname
      rw [filter_admitted_repeat he scope hname]
      rfl
    · rw [filter_admitted_condition he scope hcondition, List.length_tail, List.length_map]
      rfl
  · obtain ⟨target, htarget⟩ := Option.isSome_iff_exists.1 hbound
    have hcondition : sameName name conditionName = false :=
      sameName_of_boundName? htarget rfl (by decide)
    rw [filter_bindAttributes_own hbound hunset', hcondition]
    rfl

end Directive

/-! ### Directives of an evaluated document -/

/-- Evaluation comes to elements of the tree only. -/
theorem Directive.Reaches.holds {t : Tree} {data scope : Data} {e : Element}
    (h : Reaches t data e scope) {f : Forest} (ht : t ∈ f) : f.Holds e := by
  induction h generalizing f with
  | top => exact ⟨_, Forest.mem_preorder.2 ⟨_, ht, List.mem_cons_self⟩, rfl⟩
  | deeper _ _ hmem _ ih =>
    obtain ⟨u, hu, he⟩ := ih hmem
    exact ⟨u, Forest.mem_preorder.2 ⟨_, ht, List.mem_cons_of_mem _ hu⟩, he⟩

namespace Directive

/-- **Evaluation removes directives.**  Every element of an evaluated document comes from an element
of the template.  Of the directives of a name that no bound attribute of that element sets, all
are gone but conditions after the first one; and of a template that is regular none is left. -/
theorem directives_removed {source : String} {template : Document}
    (hparse : Document.parse source = .ok template) (imports : ImportTable) (data : Data) :
    let f := (template.evaluate imports data).forest
    (∀ o, f.Holds o → ∃ e, template.forest.Holds e ∧ o.name = e.name ∧
      ∀ name, isDirective name = true → Unset e name →
        o.attrs.countP (Attribute.named name) =
          if sameName name conditionName then e.attrs.countP (Attribute.named name) - 1 else 0) ∧
      ((∀ e, template.forest.Holds e → Regular e) →
        ∀ o, f.Holds o → ∀ a ∈ o.attrs, isDirective a.name = false) := by
  intro f
  obtain ⟨g, hg, rfl⟩ := Document.parse_eq_ok_iff.1 hparse
  have htrees := (parse_parsed hg).trees
  have hf : f = meanForest imports g data := (Document.evaluate_spec imports data g).2.1
  rw [Document.forest_ofForest]
  have horigin : ∀ o, f.Holds o → ∃ e, g.Holds e ∧ o.name = e.name ∧
      ∀ name, isDirective name = true → Unset e name →
        o.attrs.countP (Attribute.named name) =
          if sameName name conditionName then e.attrs.countP (Attribute.named name) - 1 else 0 := by
    intro o ho
    obtain ⟨t, ht, e, scope, hreaches, rfl⟩ := (holds_meanForest htrees).1 (hf ▸ ho)
    refine ⟨e, hreaches.holds ht, name_bindAttributes _ _ _, fun name hname hunset => ?_⟩
    exact countP_evaluated (hreaches.unmarked (htrees t ht)) imports scope hname hunset
  refine ⟨horigin, fun hregular o ho a ha => Bool.eq_false_iff.2 fun hname => ?_⟩
  obtain ⟨e, he, -, hcount⟩ := horigin o ho
  have hnone := hcount a.name hname ((hregular e he).unset hname)
  have hpos : 0 < o.attrs.countP (Attribute.named a.name) :=
    List.countP_pos_iff.2 ⟨a, ha, sameName_self a.name⟩
  rw [hnone] at hpos
  split at hpos
  · rename_i hcondition
    have hsame : Attribute.named a.name = Attribute.named conditionName :=
      funext (named_congr hcondition)
    have hone := (hregular e he).condition
    rw [hsame] at hpos
    omega
  · cases hpos

/-- A template with each of the directives, some of them on one element. -/
def listTemplate : String :=
  "<ul use-if=\"xs\"><li use-for=\"x in xs\" USE-FOR=\"y in ys\" use-if=\"x\" :id=\"y\" id=\"0\">" ++
    "<slot name=\"y\"></slot></li></ul>"

/-- The hypotheses are satisfiable, also for the template of a list. -/
theorem directives_removed_list : ∃ template, Document.parse listTemplate = .ok template ∧
    (∀ e, template.forest.Holds e → Regular e) ∧
    ∀ imports data o, (template.evaluate imports data).forest.Holds o →
      ∀ a ∈ o.attrs, isDirective a.name = false := by
  have hcheck : (Document.parse listTemplate).toOption.any (fun template : Document => decide
      (∀ t ∈ Forest.preorder template.forest, ∀ e ∈ t.element?,
        e.attrs.countP (Attribute.named conditionName) ≤ 1 ∧
          ∀ b ∈ e.attrs, ∀ target ∈ boundName? b.name, isDirective target = false)) = true := by
    decide +kernel
  obtain ⟨template, hparse, hcheck⟩ := exists_ok_of_any hcheck
  have hregular : ∀ e, template.forest.Holds e → Regular e := fun e ⟨t, ht, he⟩ =>
    ⟨(hcheck t ht e he).1, (hcheck t ht e he).2⟩
  exact ⟨template, hparse, hregular, fun imports data =>
    (directives_removed hparse imports data).2 hregular⟩

/-- Data in which two conditions hold. -/
def bothData : Data := [("a", .bool true), ("b", .bool true)]

/-- A template has a directive left once it is evaluated. -/
def LeavesDirective (source : String) : Prop :=
  ∃ template, Document.parse source = .ok template ∧ ∃ o,
    (template.evaluate [] bothData).forest.Holds o ∧ ∃ a ∈ o.attrs, isDirective a.name = true

/-- An attribute named like a directive, found in the evaluated document, is one left over. -/
theorem leavesDirective_of_any {source : String}
    (h : (Document.parse source).toOption.any (fun template : Document => decide
      (∃ t ∈ Forest.preorder (template.evaluate [] bothData).forest, ∃ o ∈ t.element?,
        ∃ a ∈ o.attrs, isDirective a.name = true)) = true) : LeavesDirective source := by
  obtain ⟨template, hparse, t, ht, o, ho, hleft⟩ := exists_ok_of_any h
  exact ⟨template, hparse, o, ⟨t, ht, ho⟩, hleft⟩

/-- Templates that are not regular leave directives: with a second condition, and with bound
attributes that set a condition, a repetition and a bound attribute. -/
theorem directives_left : LeavesDirective "<p use-if=\"a\" use-if=\"b\">x</p>" ∧
    LeavesDirective "<p :use-if=\"a\">x</p>" ∧ LeavesDirective "<p :use-for=\"a\">x</p>" ∧
    LeavesDirective "<p ::x=\"a\">x</p>" := by
  refine ⟨?_, ?_, ?_, ?_⟩ <;> exact leavesDirective_of_any (by decide +kernel)

end Directive
end HtmlCompose
