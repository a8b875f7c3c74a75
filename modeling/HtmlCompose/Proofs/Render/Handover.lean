/-
# Bound data reaches the child intact

An instance is an element of an evaluated template whose tag is imported.  It comes from an
element of the template, with the data in scope there (`Reaches`), and hands over its attributes:

| attribute in the template | what the child gets under its name |
| --- | --- |
| `:t="e"`, alone in addressing `t` and `:t` | the value at `e` itself, if the condition `e` holds |
| one that no bound attribute addresses | its text, the last one of a name |

The values are written as JSON when the template is evaluated and read when the child is rendered,
which may be in another place of the document.
-/
import HtmlCompose.Proofs.Directive.Elements
import HtmlCompose.Proofs.Render.Scope

namespace HtmlCompose

open Markup Directive

/-! ### What an instance hands over -/

namespace Resolve

/-- What an attribute arrives as: the value whose text it holds if it is encoded, else its text. -/
def arrival? (a : Attribute) : Option Json :=
  if a.encoded then Json.read? a.value else some (.string a.value)

/-- One more attribute adds what it arrives as, or fails if it cannot be read. -/
theorem payload_append_singleton (component : String) (attrs : List Attribute) (a : Attribute) :
    payload component (attrs ++ [a]) = (payload component attrs).bind fun data =>
      match arrival? a with
      | some v => .ok (Record.insert a.name v data)
      | none => .error (.invalidPayload component a.name) := by
  rw [payload, payload, List.foldlM_append]
  refine congrArg _ (funext fun data => ?_)
  rw [List.foldlM_cons, arrival?]
  rcases a.encoded with _ | _
  · rfl
  · rcases Json.read? a.value with _ | v <;> rfl

/-- **Attributes that can be read are handed over**, and of each name the last one is. -/
theorem exists_payload (component : String) {attrs : List Attribute}
    (h : ∀ a ∈ attrs, (arrival? a).isSome) :
    ∃ handed, payload component attrs = .ok handed ∧
      ∀ key, handed.get? key = ((attrs.filter (·.name == key)).getLast?).bind arrival? := by
  induction attrs using List.reverseRecOn with
  | nil => exact ⟨[], rfl, fun key => rfl⟩
  | append_singleton attrs a ih =>
    obtain ⟨handed, hhanded, hget⟩ := ih fun b hb => h b (List.mem_append_left _ hb)
    obtain ⟨v, hv⟩ := Option.isSome_iff_exists.1 (h a (List.mem_append_right _ List.mem_cons_self))
    refine ⟨Record.insert a.name v handed, ?_, fun key => ?_⟩
    · rw [payload_append_singleton, hhanded, hv]
      rfl
    · rw [Record.get?_insert, List.filter_append, hget]
      by_cases hkey : a.name = key
      · rw [if_pos hkey, List.filter_cons_of_pos (by simp [hkey]), List.filter_nil,
          List.getLast?_concat, Option.bind_some, hv]
      · rw [if_neg hkey, List.filter_cons_of_neg (by simp [hkey]), List.filter_nil,
          List.append_nil]

end Resolve

namespace Directive

/-! ### Attributes of an instance -/

/-- Attributes of exactly one name are among those that are named so. -/
theorem filter_name (attrs : List Attribute) (key : String) :
    attrs.filter (·.name == key) =
      (attrs.filter (Attribute.named key)).filter (·.name == key) := by
  rw [List.filter_filter]
  refine List.filter_congr fun a _ => ?_
  rw [eq_comm, Bool.and_eq_left_iff_imp]
  intro hkey
  exact eq_of_beq hkey ▸ sameName_self a.name

/-- What a child is handed by an instance, told from an element of the template with the data in
scope there, and from what the element is evaluated to. -/
structure Intact (scope : Data) (e o : Element) (handed : Data) : Prop where
  /-- a bound attribute that nothing else interferes with; its own placeholders are filled first -/
  bound : ∀ b target, boundName? b.name = some target → Alone e.attrs b target →
    Promised scope (Placeholder.fill false scope b.value) (handed.get? target)
  /-- one without placeholders -/
  literal : ∀ b target, boundName? b.name = some target → Alone e.attrs b target →
    Text.occurs Placeholder.braces b.value.toList = false →
      Promised scope b.value (handed.get? target)
  /-- an attribute that no bound attribute addresses and that is no other directive -/
  untouched : ∀ key, sameName key repeatName = false → sameName key conditionName = false →
    (∀ b ∈ e.attrs, (boundName? b.name).isSome → addresses key b = false) →
      handed.get? key = ((e.attrs.filter (·.name == key)).getLast?).map fun a =>
        .string (Placeholder.fill false scope a.value)
  /-- any attribute that was not written by a bound one -/
  text : ∀ a ∈ o.attrs, a.encoded = false → ∃ last,
    (o.attrs.filter (·.name == a.name)).getLast? = some last ∧ last.encoded = false ∧
      handed.get? a.name = some (.string last.value)

variable {scope : Data} {e : Element}

/-- Where the marks are right, every attribute arrives as something. -/
theorem Marked.isSome_arrival? {attrs : List Attribute} (h : Marked attrs) :
    ∀ a ∈ attrs, (Resolve.arrival? a).isSome := by
  intro a ha
  rw [Resolve.arrival?]
  split
  · rename_i hencoded
    obtain ⟨v, hv, hvalue⟩ := h.readable a ha hencoded
    rw [hvalue, Json.read?_print hv]
    rfl
  · rfl

/-- A bound attribute that is alone is alone once the element has been filled. -/
theorem alone_filled (he : e.Unmarked) {b : Attribute} {target : String}
    (hbound : boundName? b.name = some target) (halone : Alone e.attrs b target) :
    Alone (admitted scope (single e)).attrs (filled scope b) target := by
  refine (filter_admitted he (fun _ => rfl) fun a ha hq => ?_).trans (congrArg _ halone)
  have hb : a ∈ [b] := halone ▸ List.mem_filter.2 ⟨ha, hq⟩
  rw [List.mem_singleton.1 hb]
  exact ⟨sameName_of_boundName? hbound rfl (by decide),
    sameName_of_boundName? hbound rfl (by decide)⟩

section

variable {handed : Data} {o : Element}
  (ho : o = bindAttributes scope true (admitted scope (single e)))
  (hget : ∀ key, handed.get? key =
    ((o.attrs.filter (·.name == key)).getLast?).bind Resolve.arrival?)

include ho hget

/-- The value of a bound attribute that is alone is read back. -/
theorem promised_of_alone (he : e.Unmarked) (hscope : scope.Readable) {b : Attribute}
    {target : String} (hbound : boundName? b.name = some target)
    (halone : Alone e.attrs b target) :
    Promised scope (Placeholder.fill false scope b.value) (handed.get? target) := by
  have htarget : o.attrs.filter (Attribute.named target) = _ :=
    ho ▸ filter_bindAttributes_target (b := filled scope b) hbound (alone_filled he hbound halone)
  have hvalue : handed.get? target =
      boundValue? scope (Placeholder.fill false scope b.value) := by
    rw [hget, filter_name, htarget, filled]
    rcases hv : boundValue? scope (Placeholder.fill false scope b.value) with _ | v
    · rfl
    · have hread : Json.read? v.print = some v := Json.read?_print (readable_boundValue? hscope hv)
      simp [Resolve.arrival?, hread]
  rw [hvalue]
  exact promised_boundValue? scope _

/-- A name that no bound attribute addresses stands for the text that the template has for it. -/
theorem get?_of_untouched (he : e.Unmarked) {key : String}
    (hrepeat : sameName key repeatName = false) (hcondition : sameName key conditionName = false)
    (hfree : ∀ b ∈ e.attrs, (boundName? b.name).isSome → addresses key b = false) :
    handed.get? key = ((e.attrs.filter (·.name == key)).getLast?).map fun a =>
      .string (Placeholder.fill false scope a.value) := by
  have hkept : o.attrs.filter (Attribute.named key) =
      (e.attrs.filter (Attribute.named key)).map (filled scope) := by
    rw [ho, filter_bindAttributes]
    · exact filter_admitted he (fun _ => rfl) fun a _ ha =>
        ⟨(sameName_congr ha _).trans hrepeat, (sameName_congr ha _).trans hcondition⟩
    · intro b hb hbound
      obtain ⟨c, hc, rfl⟩ := exists_of_mem_admitted he hb
      exact hfree c hc hbound
  have hlast : (o.attrs.filter (·.name == key)).getLast? =
      ((e.attrs.filter (·.name == key)).getLast?).map (filled scope) := by
    rw [filter_name, hkept, List.filter_map, filter_name e.attrs, List.getLast?_map]
    rfl
  rw [hget, hlast]
  cases hlast' : (e.attrs.filter (·.name == key)).getLast? with
  | none => rfl
  | some a =>
    have ha := he a (List.mem_of_mem_filter (List.mem_of_getLast? hlast'))
    simp [Resolve.arrival?, filled, ha]

end

/-- **An instance hands over its attributes, and bound data as it is.** -/
theorem exists_intact (component : String) (he : e.Unmarked) (hscope : scope.Readable) :
    let o := bindAttributes scope true (admitted scope (single e))
    ∃ handed, Resolve.payload component o.attrs = .ok handed ∧ Intact scope e o handed := by
  intro o
  have hmarked : Marked o.attrs :=
    (Marked.of_unmarked (unmarked_admitted he scope)).bindAttributes hscope
  obtain ⟨handed, hhanded, hget⟩ := Resolve.exists_payload component hmarked.isSome_arrival?
  refine ⟨handed, hhanded, fun b target hbound halone => ?_,
    fun b target hbound halone hliteral => ?_, fun key hrepeat hcondition hfree => ?_,
    fun a ha hplain => ?_⟩
  · exact promised_of_alone rfl hget he hscope hbound halone
  · have hfill := fill_of_isLiteral (s := b.value) (by simp [isLiteral, hliteral]) false scope
    exact hfill ▸ promised_of_alone rfl hget he hscope hbound halone
  · exact get?_of_untouched rfl hget he hrepeat hcondition hfree
  · have hne : o.attrs.filter (·.name == a.name) ≠ [] :=
      List.ne_nil_of_mem (List.mem_filter.2 ⟨ha, BEq.rfl⟩)
    obtain ⟨last, hlast⟩ := Option.isSome_iff_exists.1 (List.getLast?_isSome.2 hne)
    have hlastPlain := hmarked.last_of_name ha hplain hlast
    refine ⟨last, hlast, hlastPlain, ?_⟩
    rw [hget, hlast, Option.bind_some, Resolve.arrival?, hlastPlain]
    rfl

end Directive

/-! ### What a child is handed -/

namespace Resolve.Dialogue

variable {ρ : Type} {child : RenderChild ρ}

/-- A dialogue fails with an error of its own or of a render that it has asked for. -/
theorem error_of_run {E : RenderError → Prop} {d : Dialogue} (hd : d.StopsOnly E) {p : Progress ρ}
    {error : RenderError} (h : (d.run child p).failure = some error) :
    E error ∨ ∃ uri data s, d.Asks child p uri data s ∧ (child uri data s).1 = .error error := by
  induction d generalizing p with
  | done nodes => cases h
  | stop nodes error' => exact .inl (Option.some.inj h ▸ hd)
  | ask uri data unchanged next ih =>
    rcases hr : child uri data p.run with ⟨error' | rendered, s⟩
    · rw [run_ask_error hr] at h
      obtain rfl := Option.some.inj h
      exact .inr ⟨uri, data, p.run, .now, by rw [hr]⟩
    · rw [run_ask_ok hr] at h
      refine (ih rendered (hd rendered) h).imp_right ?_
      rintro ⟨uri', data', t, hasks, herror⟩
      exact ⟨uri', data', t, .later hr hasks, herror⟩

end Resolve.Dialogue

open Resolve

/-- The payload of an instance can be made, and is intact. -/
theorem Directive.Reaches.intact {t : Tree} {data scope : Data} {e : Element}
    (h : Reaches t data e scope) (ht : t.Parsed) (hdata : data.Readable) (component : String)
    {imports : ImportTable} (himport : imports.contains e.name = true) :
    ∃ handed, payload component (evaluated imports scope e).attrs = .ok handed ∧
      Intact scope e (evaluated imports scope e) handed := by
  rw [evaluated, himport]
  exact exists_intact component (h.unmarked ht) (h.readable hdata)

/-- The instances of evaluated trees are those that evaluation comes to. -/
theorem instances_meanForest {g : Forest} (hg : ∀ t ∈ g, t.Parsed) {data : Data}
    {component : String} {imports : ImportTable} {P : String → Except RenderError Data → Prop}
    (hP : ∀ t ∈ g, ∀ e scope, Reaches t data e scope → ∀ uri, imports.get? e.name = some uri →
      P uri (payload component (evaluated imports scope e).attrs)) :
    Dialogue.Instances component imports P (meanForest imports g data) := by
  intro t ht o ho uri huri
  obtain ⟨t', ht', e, scope, hreaches, rfl⟩ := (holds_meanForest hg).1 ⟨t, ht, ho⟩
  rw [evaluated, name_bindAttributes] at huri
  exact hP t' ht' e scope hreaches uri huri

/-- **Bound data reaches the child intact.**  Let the values of the data be without doubles and
nested at most 127 deep.  The elements of an evaluated template are those that evaluation comes to
(`Reaches`).  Each that stands for a component has a payload, and the payload is `Intact`: a bound
attribute that is alone in addressing its target and itself arrives as the value at its path if its
condition holds, and does not arrive if it does not; all other attributes arrive as their text.  A
child is never handed anything but such a payload, wherever its instance stands by then, and a
payload is never what resolving fails with. -/
theorem bound_data_intact {source : String} {template : Document}
    (hparse : Document.parse source = .ok template) {data : Data} (hdata : data.Readable)
    {ρ : Type} (i : Importer ρ) (p : Progress ρ) :
    let f := (template.evaluate i.imports data).forest
    let d := Dialogue.ofForest i.component i.imports f
    (∀ o, f.Holds o ↔ ∃ t ∈ template.forest, ∃ e scope, Reaches t data e scope ∧
        o = evaluated i.imports scope e) ∧
      (∀ t ∈ template.forest, ∀ e scope, Reaches t data e scope →
        i.imports.contains e.name = true → ∃ handed,
          payload i.component (evaluated i.imports scope e).attrs = .ok handed ∧
            Intact scope e (evaluated i.imports scope e) handed) ∧
      (∀ uri handed s, d.Asks i.child p uri handed s →
        ∃ t ∈ template.forest, ∃ e scope, Reaches t data e scope ∧
          i.imports.get? e.name = some uri ∧
          payload i.component (evaluated i.imports scope e).attrs = .ok handed) ∧
      ∀ error, (resolveForest i f p).failure = some error →
        (∃ uri fault, error = .markup uri fault) ∨
          ∃ uri handed s, d.Asks i.child p uri handed s ∧
            (i.child uri handed s).1 = .error error := by
  intro f d
  obtain ⟨g, hg, rfl⟩ := Document.parse_eq_ok_iff.1 hparse
  have htrees := (parse_parsed hg).trees
  have hf : f = meanForest i.imports g data := (Document.evaluate_spec i.imports data g).2.1
  rw [Document.forest_ofForest]
  refine ⟨fun o => hf ▸ holds_meanForest htrees, fun t ht e scope hreaches himport =>
    hreaches.intact (htrees t ht) hdata i.component himport, fun uri handed s hasks => ?_,
    fun error herror => ?_⟩
  · refine hasks.asksWith (Q := fun uri handed => ∃ t ∈ g, ∃ e scope, Reaches t data e scope ∧
      i.imports.get? e.name = some uri ∧
      payload i.component (evaluated i.imports scope e).attrs = .ok handed) ?_
    refine (Dialogue.handed_asksWith _).ofForest i.imports (hf ▸ instances_meanForest htrees ?_)
    exact fun t ht e scope hreaches uri huri handed hhanded =>
      ⟨t, ht, e, scope, hreaches, huri, hhanded⟩
  · rw [Dialogue.resolveForest_eq_run] at herror
    refine Dialogue.error_of_run (E := fun error => ∃ uri fault, error = .markup uri fault) ?_
      herror
    refine (Dialogue.handed_stopsOnly fun uri fault => ⟨uri, fault, rfl⟩).ofForest i.imports
      (hf ▸ instances_meanForest htrees fun t ht e scope hreaches uri huri error herror => ?_)
    obtain ⟨handed, hhanded, -⟩ := hreaches.intact (htrees t ht) hdata i.component
      (Option.isSome_iff_exists.2 ⟨uri, huri⟩)
    exact nomatch hhanded.symm.trans herror

/-- A value in which lists, objects and escapes meet. -/
def nestedValue : Json :=
  .object [("a", .array [.number (.int (-1)), .string "\"\n"]), ("b", .object [])]

/-- Data with the value. -/
def nestedData : Data := [("v", nestedValue)]

/-- The nested value can be read back. -/
theorem readable_nestedData : nestedData.Readable := by
  have hlist : Json.WholeItems [.number (.int (-1)), .string "\"\n"] :=
    ⟨⟨by decide, by decide⟩, trivial, trivial⟩
  have hfields : Json.WholeFields [("a", .array [.number (.int (-1)), .string "\"\n"]),
      ("b", .object [])] := ⟨hlist, ⟨List.Pairwise.nil, trivial⟩, trivial⟩
  exact List.forall_mem_singleton.2 ⟨⟨by decide, hfields⟩, by decide⟩

/-- An element with a bound attribute, and with one that looks like JSON. -/
def itemElement : Element := ⟨"x-item", [⟨":t", "v", false⟩, ⟨"n", "[1]", false⟩]⟩

/-- Evaluation comes to the item below the card, with the data as it is. -/
theorem reaches_itemElement {kids below : Forest} (h : .node (.element itemElement) below ∈ kids) :
    Reaches (.node (.element ⟨"x-card", []⟩) kids) nestedData itemElement nestedData := by
  have hscopes : ∀ e : Element, e.attr? repeatName = none → nestedData ∈ scopes nestedData e :=
    fun e he => scopes_of_attr?_eq_none he nestedData ▸ List.mem_cons_self
  refine .deeper (hscopes _ (by decide +kernel)) ⟨by decide +kernel, by decide +kernel⟩ h ?_
  exact .top (hscopes _ (by decide +kernel)) ⟨by decide +kernel, by decide +kernel⟩

/-- The hypotheses are satisfiable: an item inside a card is handed a nested value under one name,
and a text that looks like JSON under another. -/
theorem bound_data_intact_item : ∃ template, Document.parse
      "<x-card><x-item :t=\"v\" n=\"[1]\"></x-item></x-card>" = .ok template ∧
    nestedData.Readable ∧
    ∃ t ∈ template.forest, Reaches t nestedData itemElement nestedData ∧ ∃ handed,
      payload "page"
        (evaluated [("x-card", "card"), ("x-item", "item")] nestedData itemElement).attrs =
          .ok handed ∧
      handed.get? "t" = some nestedValue ∧ handed.get? "n" = some (.string "[1]") := by
  have hcheck : (Document.parse
      "<x-card><x-item :t=\"v\" n=\"[1]\"></x-item></x-card>").toOption.any
      (fun template : Document => decide (∃ t ∈ template.forest,
        t.content = .element ⟨"x-card", []⟩ ∧
          ∃ u ∈ t.children, u.content = .element itemElement)) = true := by decide +kernel
  rcases hparse : Document.parse "<x-card><x-item :t=\"v\" n=\"[1]\"></x-item></x-card>" with
    fault | template <;> rw [hparse] at hcheck
  · cases hcheck
  obtain ⟨⟨c, kids⟩, hmem, rfl, ⟨c', below⟩, hbelow, rfl⟩ := of_decide_eq_true hcheck
  have hreaches := reaches_itemElement hbelow
  obtain ⟨-, hintact, -⟩ := bound_data_intact hparse readable_nestedData
    (⟨"page", [("x-card", "card"), ("x-item", "item")],
      fun uri _ s => (.error (.cyclicImport [uri]), s)⟩ : Importer Unit) ⟨(), [], []⟩
  obtain ⟨handed, hhanded, h⟩ := hintact _ hmem _ _ hreaches (by decide +kernel)
  refine ⟨template, rfl, readable_nestedData, _, hmem, hreaches, handed, hhanded, ?_, ?_⟩
  · obtain ⟨hkey, hvalue⟩ := h.literal ⟨":t", "v", false⟩ "t" (by decide +kernel)
      (by rw [Alone]; decide +kernel) (by decide +kernel)
    obtain ⟨v, hv⟩ := Option.isSome_iff_exists.1 (hkey.trans (by decide +kernel))
    rw [hv, ← hvalue v hv]
    rfl
  · rw [h.untouched "n" (by decide +kernel) (by decide +kernel) (by decide +kernel)]
    rfl

end HtmlCompose
