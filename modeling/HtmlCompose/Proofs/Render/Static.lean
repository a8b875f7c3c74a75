/-
# Components without directives

Data has nothing to do with a component that has no directive and no placeholder, imports have
nothing to do with one that has no instance, and nothing but the trees of its template ever gets to
its page.  Each step of a render gives what it is given:

| step | why |
| --- | --- |
| evaluation | no attribute is filled, left out or bound, and no slot has a name (`meanForest_static`) |
| resolution | no element is an instance, so nothing is asked for (`ofForest_static`) |
| the head of the page | there is no behavior and no stylesheet, so there are no assets |
| the cache | every result of such a component as a root is the same |

So its page is the markup of its template, for any data and whatever has been rendered before
(`render_static`).  Only a result of the component as a descendant would be another one, and a root
gets it only if SHA-256 takes the one render for the other.
-/
import HtmlCompose.Proofs.Directive.Removal
import HtmlCompose.Proofs.Render.Warmth

namespace HtmlCompose

open Markup Resolve Directive

/-! ### Evaluation -/

namespace Directive

/-- Neither data nor imports have to do with an element. -/
structure Static (imports : ImportTable) (e : Element) : Prop where
  literal : ∀ a ∈ e.attrs, Text.occurs Placeholder.braces a.value.toList = false
  plain : ∀ a ∈ e.attrs, isDirective a.name = false
  unnamed : e.is slotTag = true → e.attr? "name" = none
  here : imports.get? e.name = none

variable {imports : ImportTable} {e : Element}

/-- An element has no attribute of a name that none of its attributes has. -/
theorem attr?_eq_none {name : String} (h : ∀ a ∈ e.attrs, a.named name = false) :
    e.attr? name = none :=
  Option.map_eq_none_iff.2 (List.find?_eq_none.2 fun a ha => by simp [h a ha])

namespace Static

variable (h : Static imports e)
include h

/-- A static element has no placeholder to fill. -/
theorem fillAttributes_eq (data : Data) : fillAttributes data e = e := by
  have hsame : ∀ a ∈ e.attrs,
      (if a.encoded then a else { a with value := Placeholder.fill false data a.value }) = a := by
    intro a ha
    have hfill := fill_of_isLiteral (s := a.value) (by simp [isLiteral, h.literal a ha]) false data
    rw [hfill, ite_self]
  rw [fillAttributes, List.map_congr_left hsame, List.map_id']

/-- A static element has no condition to lose. -/
theorem admitted_eq (data : Data) : admitted data e = e := by
  rw [admitted, h.fillAttributes_eq, Element.removeAttr, List.eraseP_of_forall_not]
  intro a ha hcondition
  exact Bool.false_ne_true ((isDirective_eq_false (h.plain a ha)).2.1.symm.trans hcondition)

/-- A static element has no attribute to bind. -/
theorem bindAttributes_eq (data : Data) (isInstance : Bool) :
    bindAttributes data isInstance e = e := by
  have hnone : e.attrs.filter (fun a => (boundName? a.name).isSome) = [] := by
    refine List.filter_eq_nil_iff.2 fun a ha => ?_
    simp [(isDirective_eq_false (h.plain a ha)).2.2]
  rw [bindAttributes, hnone]
  rfl

/-- A static element means itself, around what is below it. -/
theorem meanElement_eq (below : Data → Forest) (data : Data) :
    meanElement imports below data e = [.ofElement e (below data)] := by
  have hrepeat : e.attr? repeatName = none :=
    attr?_eq_none fun a ha => (isDirective_eq_false (h.plain a ha)).1
  have hcondition : e.attr? conditionName = none :=
    attr?_eq_none fun a ha => (isDirective_eq_false (h.plain a ha)).2.1
  have hslot : slotText? data e = none := by
    rw [slotText?]
    split
    · next hslot => rw [h.unnamed hslot]; rfl
    · rfl
  rw [meanElement_single imports below data hrepeat, meanSingle, h.fillAttributes_eq,
    h.admitted_eq, hslot, h.bindAttributes_eq, admits, hcondition]
  rfl

end Static

/-- The texts and the elements of a tree have nothing to do with data and imports. -/
def StaticTree (imports : ImportTable) (t : Tree) : Prop :=
  ∀ u ∈ t.preorder, isLiteral u.content = true ∧ ∀ e ∈ u.element?, Static imports e

/-- A tree is static if its top and the trees below are. -/
theorem staticTree_node {c : Content} {kids : Forest} :
    StaticTree imports (.node c kids) ↔
      (isLiteral c = true ∧ ∀ e ∈ c.element?, Static imports e) ∧
        ∀ t ∈ kids, StaticTree imports t :=
  Tree.forall_preorder

mutual
/-- A static tree means itself. -/
theorem meanTree_static {t : Tree} (ht : StaticTree imports t) (data : Data) :
    meanTree imports t data = [t] := by
  obtain ⟨c, kids⟩ := t
  obtain ⟨⟨hc, he⟩, hkids⟩ := staticTree_node.1 ht
  cases c with
  | text s => rw [meanTree, fill_of_isLiteral hc]
  | element e =>
    rw [meanTree, (he e rfl).meanElement_eq, meanForest_static hkids]
    rfl
  | _ => rfl

/-- **Static trees mean themselves.** -/
theorem meanForest_static {f : Forest} (hf : ∀ t ∈ f, StaticTree imports t) (data : Data) :
    meanForest imports f data = f := by
  match f with
  | [] => rfl
  | t :: ts =>
    obtain ⟨ht, hts⟩ := List.forall_mem_cons.1 hf
    rw [meanForest, meanTree_static ht, meanForest_static hts]
    rfl
end

end Directive

/-! ### Resolution -/

namespace Resolve.Dialogue

variable {imports : ImportTable}

mutual
/-- Resolving a static tree asks for nothing. -/
theorem ofTree_static (component : String) {t : Tree} (ht : StaticTree imports t) :
    ofTree component imports t = done [t] := by
  obtain ⟨c, kids⟩ := t
  obtain ⟨⟨-, he⟩, hkids⟩ := staticTree_node.1 ht
  rw [ofTree]
  cases hc : c.element? with
  | none => rfl
  | some e =>
    simp only [(he e hc).here, ofForest_static component hkids]
    rfl

/-- **Resolving static trees asks for nothing.** -/
theorem ofForest_static (component : String) {f : Forest} (hf : ∀ t ∈ f, StaticTree imports t) :
    ofForest component imports f = done f := by
  match f with
  | [] => rfl
  | t :: ts =>
    obtain ⟨ht, hts⟩ := List.forall_mem_cons.1 hf
    rw [ofForest, ofTree_static component ht, ofForest_static component hts]
    rfl
end

end Resolve.Dialogue

/-! ### Renders of static components -/

namespace Renderer

/-- A component that is read as static trees, and has no script and no stylesheet. -/
structure IsStatic (r : Renderer) (component : Component) (f : Forest) : Prop where
  parse : Markup.parse component.template = .ok f
  static : ∀ t ∈ Forest.preorder f, isLiteral t.content = true ∧
    ∀ e ∈ t.element?, Static component.settings.imports e
  script : component.script = none
  style : component.settings.plugin? r.config.cssPlugin = none

variable {r : Renderer} {uri : String} {component : Component} {f : Forest}

/-- A fresh render of a static component as a root gives its trees, and does nothing else. -/
theorem IsStatic.renderFresh_root (h : r.IsStatic component f) (child : RenderChild Run)
    (uri : String) (data : Data) (run : Run) :
    r.renderFresh child uri component data .root run = (.ok ⟨Forest.serialize f, [], []⟩, run) := by
  have htrees : ∀ t ∈ f, StaticTree component.settings.imports t :=
    fun t ht u hu => h.static u (Forest.mem_preorder.2 ⟨t, ht, hu⟩)
  have hquestions : questions uri component data = .ok (.done f) := by
    rw [questions, Document.parse_eq_ok_iff.2 ⟨f, h.parse, rfl⟩]
    simp only [(Document.evaluate_spec _ data f).2.1, meanForest_static htrees,
      Dialogue.ofForest_static uri htrees]
  have hassets : r.behavior uri component data = [] ∧ r.style component f = [] := by
    constructor
    · rw [behavior, h.script]
      rfl
    · rw [Renderer.style, h.style]
      rfl
  rw [renderFresh_eq, hquestions]
  simp only [Dialogue.run, keep, conclude, finishRoot, hassets]
  rfl

/-- The cached results of a component are its markup, or were made for loads of it as a
descendant. -/
def CachedAs (uri : String) (component : Component) (markup : String) (run : Run) : Prop :=
  ∀ fingerprint rendered, run.cache.get? (uri, fingerprint) = some rendered →
    rendered = ⟨markup, [], []⟩ ∨ ∃ load ∈ run.loads, load.uri? = some uri ∧
      load.mode = .descendant ∧
      (uri, fingerprint) = key uri component load.custom load.mode

/-- Any render keeps it that way. -/
theorem IsStatic.cachedAs (h : r.IsStatic component f) (hcomponent : r.library uri = .ok component)
    (uri' : String) (custom : Option Data) (mode : RenderMode) {run : Run}
    (hrun : CachedAs uri component (Forest.serialize f) run) :
    CachedAs uri component (Forest.serialize f) (r.renderComponent uri' custom mode run).2 := by
  refine renderComponent_keeps_finished (fun s ancestry hs => hs) ?_ ?_ uri' custom mode hrun
  · rintro s custom mode hs fingerprint rendered hcached
    refine (hs fingerprint rendered hcached).imp_right ?_
    rintro ⟨load, hload, hmade⟩
    exact ⟨load, List.mem_cons_of_mem _ hload, hmade⟩
  · intro other component' load rendered after hfinishes hafter fingerprint found hfound
    rw [kept_loads]
    rcases cached_of_kept hfound with hold | ⟨hkey, rfl⟩
    · exact hafter fingerprint found hold
    obtain rfl : uri = other := congrArg Prod.fst hkey
    obtain rfl : component = component' :=
      Except.ok.inj (hcomponent.symm.trans hfinishes.loaded)
    obtain ⟨child, run, hresult⟩ := hfinishes.result
    rcases hmode : load.mode with _ | _
    · rw [hmode, h.renderFresh_root] at hresult
      exact .inl (Except.ok.inj (congrArg Prod.fst hresult)).symm
    · exact .inr ⟨load, hfinishes.noted, hfinishes.address, hmode, hkey⟩

/-- Any history of renders keeps it that way, too. -/
theorem IsStatic.cachedAs_after (h : r.IsStatic component f)
    (hcomponent : r.library uri = .ok component) (history : List Earlier) {run : Run}
    (hrun : CachedAs uri component (Forest.serialize f) run) :
    CachedAs uri component (Forest.serialize f) (r.after history run) := by
  induction history generalizing run with
  | nil => exact hrun
  | cons e history ih =>
    have htuned : (r.tuned e.maxDepth e.renderCache).IsStatic component f :=
      ⟨h.parse, h.static, h.script, h.style⟩
    refine ih (htuned.cachedAs hcomponent e.uri e.custom e.mode ?_)
    exact fun fingerprint rendered hcached => hrun fingerprint rendered hcached

/-- An entered render of a static component as a root gives its markup, if the cache holds nothing
else for it. -/
theorem IsStatic.renderEntered_root (h : r.IsStatic component f)
    (hcomponent : r.library uri = .ok component) {custom : Option Data} {run : Run}
    (hrun : ∀ hit, run.cache.get? (key uri component custom .root) = some hit →
      hit = ⟨Forest.serialize f, [], []⟩) (child : RenderChild Run) :
    (r.renderEntered child uri custom .root run).1 = .ok ⟨Forest.serialize f, [], []⟩ := by
  rw [renderEntered_eq, hcomponent]
  simp only [h.renderFresh_root]
  rcases hhit : r.hit? uri component custom .root run.cache with _ | hit
  · exact kept_fst hrun
  · rw [hrun hit (get?_of_hit? hhit)]
    rfl

/-- **The page of a component without directives is its template.**  It is so for all data, under
any configuration and after any renders with the same cache.  The only assumption is that SHA-256
has told this render apart from loads of the component as a descendant. -/
theorem render_static {r : Renderer} {uri : String} {component : Component} {f : Forest}
    (hcomponent : r.library uri = .ok component) (h : r.IsStatic component f)
    (history : List Earlier) (custom : Option Data)
    (hclear : ∀ load ∈ (r.after history {}).loads, load.uri? = some uri →
      load.mode = .descendant →
      key uri component load.custom .descendant ≠ key uri component custom .root) :
    (r.render uri custom (r.after history {})).1 = .ok (Forest.serialize f) := by
  have hempty : CachedAs uri component (Forest.serialize f) {} := fun _ _ hcached => nomatch hcached
  have hcachedAs := h.cachedAs_after hcomponent history hempty
  let run := entered (r.after history {}) uri
  have hcached : ∀ hit, run.cache.get? (key uri component custom .root) = some hit →
      hit = ⟨Forest.serialize f, [], []⟩ := by
    intro hit hhit
    refine (hcachedAs _ hit hhit).resolve_right ?_
    rintro ⟨load, hload, huri, hmode, hkey⟩
    exact hclear load hload huri hmode (hmode ▸ hkey).symm
  have hentered : (r.renderEntered r.descend uri custom .root run).1 =
      .ok ⟨Forest.serialize f, [], []⟩ := h.renderEntered_root hcomponent hcached r.descend
  have hfresh := r.after_ancestry history {} rfl
  simp only [render, fresh_eq hfresh, renderComponent_eq, hfresh, List.not_mem_nil, if_false,
    List.length_nil, Nat.not_lt_zero]
  exact congrArg (Except.map (·.markup)) hentered

/-- A page with a slot, a document type and a script in its markup. -/
def staticPage : Component :=
  { settings := { data := [("x", .bool true)], imports := [("x-card", "card")] }
    template := "<!DOCTYPE html><p :=x Use='\x7b'>\x7b x \x7d<slot>&amp;</slot><script>a<b</script>" }

/-- The hypotheses are satisfiable, after renders of the page as a root with other data, and as a
descendant. -/
theorem render_static_page :
    let registry : Registry := { components := [("page", staticPage)] }
    let r : Renderer := ⟨registry.library, {}, {}⟩
    let history : List Earlier := [⟨32, true, "page", some [("x", .null)], .root⟩,
      ⟨0, true, "page", none, .descendant⟩]
    (r.render "page" none (r.after history {})).1 = .ok
      "<!DOCTYPE html><p :=\"x\" Use=\"\x7b\">\x7b x \x7d<slot>&amp;</slot><script>a<b</script></p>" := by
  intro registry r history
  have hcheck : (Markup.parse staticPage.template).toOption.any (fun f => decide (
      (∀ t ∈ Forest.preorder f, isLiteral t.content = true ∧ ∀ e ∈ t.element?,
        (∀ a ∈ e.attrs, Text.occurs Placeholder.braces a.value.toList = false) ∧
        (∀ a ∈ e.attrs, isDirective a.name = false) ∧
        (e.is slotTag = true → e.attr? "name" = none) ∧
        staticPage.settings.imports.get? e.name = none) ∧
      Forest.serialize f =
        "<!DOCTYPE html><p :=\"x\" Use=\"\x7b\">\x7b x \x7d<slot>&amp;</slot><script>a<b</script></p>")) =
      true := by
    decide +kernel
  obtain ⟨f, hparse, hstatic, hmarkup⟩ := exists_ok_of_any hcheck
  have h : r.IsStatic staticPage f :=
    ⟨hparse, fun t ht => ⟨(hstatic t ht).1, fun e he =>
      let ⟨hliteral, hplain, hunnamed, hhere⟩ := (hstatic t ht).2 e he
      ⟨hliteral, hplain, hunnamed, hhere⟩⟩, rfl, rfl⟩
  exact hmarkup ▸ render_static rfl h history none (by decide +kernel)

end Renderer
end HtmlCompose
