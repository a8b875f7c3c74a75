/-
# Imports of one component are no business of another

A render looks into a component's import table for the tags of the component's own
template, and for nothing else (`questions_congr`).  The markup that its children are
rendered to, and the content that its callers put into its slots, are resolved where they
come from.  So components that agree on these tags and on all else that a render reads
(`Component.Alike`) take the same steps in every library (`renderWithin_withLibrary`), and one
more import, whose tag the template does not use, changes no render (`import_scoped`).
-/
import HtmlCompose.Proofs.Render.Ancestry
import HtmlCompose.Proofs.Resolve.Scope

namespace HtmlCompose

open Markup Resolve

/-! ### More imports -/

/-- Setting the address of a tag leaves the addresses of all other tags. -/
theorem ImportTable.get?_insert_of_not_same {tag name : String}
    (h : sameName name tag = false) (uri : String) (t : ImportTable) :
    (ImportTable.insert tag uri t).get? name = t.get? name := by
  have htag : sameName tag name = false := BEq.comm.trans h
  induction t with
  | nil => simp [ImportTable.insert, ImportTable.get?, htag]
  | cons entry t ih =>
    obtain ⟨existing, old⟩ := entry
    rw [ImportTable.insert]
    split
    · next hexisting =>
      have hname : sameName existing name = false := by
        rw [sameName, beq_iff_eq] at hexisting
        rwa [sameName, hexisting, ← sameName]
      simp [ImportTable.get?, hname]
    · rw [ImportTable.get?, ImportTable.get?, List.find?_cons, List.find?_cons]
      split
      · rfl
      · exact ih

/-- The component with one more import, in the place of an earlier one of this tag. -/
def Component.importing (c : Component) (tag uri : String) : Component :=
  { c with settings := { c.settings with
      imports := ImportTable.insert tag uri c.settings.imports } }

/-- No element of the component's own template has a tag. -/
def Component.Lacks (c : Component) (tag : String) : Prop :=
  ∀ template, Document.parse c.template = .ok template →
    ∀ t ∈ Forest.preorder template.forest, t.isElement tag = false

instance (c : Component) (tag : String) : Decidable (c.Lacks tag) :=
  match h : Document.parse c.template with
  | .ok template =>
    decidable_of_iff (∀ t ∈ Forest.preorder template.forest, t.isElement tag = false)
      ⟨fun hall _ h' => Except.ok.inj (h.symm.trans h') ▸ hall, fun hall => hall template h⟩
  | .error _ => isTrue fun _ h' => nomatch h.symm.trans h'

/-- A tag that the template lacks is none of the names in it. -/
theorem Component.Lacks.tags {c : Component} {tag : String} (h : c.Lacks tag)
    {template : Document} (hparse : Document.parse c.template = .ok template) :
    ∀ name ∈ Forest.tags template.forest, sameName name tag = false := by
  intro name hname
  obtain ⟨t, ht, e, he, rfl⟩ := Forest.mem_tags.1 hname
  have hfree := h template hparse t ht
  rwa [Tree.isElement, he, Option.any_some] at hfree

/-- Two components agree on all that a render reads, and on the imports that their template
uses. -/
structure Component.Alike (c c' : Component) : Prop where
  template : c.template = c'.template
  script : c.script = c'.script
  data : c.settings.data = c'.settings.data
  conditions : c.settings.when_ = c'.settings.when_
  plugins : c.settings.plugins = c'.settings.plugins
  imports : ∀ f, Markup.parse c.template = .ok f →
    c.settings.imports.AgreeOn c'.settings.imports f

/-- A component is like itself. -/
theorem Component.Alike.refl (c : Component) : c.Alike c :=
  ⟨rfl, rfl, rfl, rfl, rfl, fun _ _ _ _ => rfl⟩

/-- A component is like itself with an import that its template does not use. -/
theorem Component.Lacks.alike_importing {c : Component} {tag : String} (h : c.Lacks tag)
    (uri : String) : c.Alike (c.importing tag uri) := by
  refine ⟨rfl, rfl, rfl, rfl, rfl, fun f hf name hname => ?_⟩
  have hparse : Document.parse c.template = .ok (Document.ofForest f) :=
    Document.parse_eq_ok_iff.2 ⟨f, hf, rfl⟩
  have hnot := h.tags hparse name (by rwa [Document.forest_ofForest])
  exact (ImportTable.get?_insert_of_not_same hnot uri _).symm

/-- Components that are alike have the same data. -/
theorem Component.Alike.merge {c c' : Component} (h : c.Alike c') (custom : Option Data) :
    Context.merge c.settings custom = Context.merge c'.settings custom := by
  simp only [Context.merge, Context.base, Context.active, h.data, h.conditions]

/-- A render that a dialogue asks for has what holds of all that the dialogue may ask for. -/
theorem Resolve.Dialogue.Asks.asksWith {ρ : Type} {child : RenderChild ρ}
    {Q : String → Data → Prop} {d : Dialogue} {p : Progress ρ} {uri : String} {data : Data} {s : ρ}
    (h : d.Asks child p uri data s) (hd : d.AsksWith Q) : Q uri data := by
  induction h with
  | now => exact hd.1
  | later _ _ ih => exact ih (hd.2 _)

namespace Renderer

/-! ### What a component asks for -/

/-- What a component asks for depends on its imports at the tags of its template only. -/
theorem questions_congr {component component' : Component}
    (htemplate : component.template = component'.template)
    (himports : ∀ f, Markup.parse component.template = .ok f →
      component.settings.imports.AgreeOn component'.settings.imports f)
    (uri : String) (data : Data) :
    questions uri component data = questions uri component' data := by
  unfold questions
  rw [← htemplate]
  rcases hparse : Document.parse component.template with fault | template
  · rfl
  obtain ⟨f, hf, rfl⟩ := Document.parse_eq_ok_iff.1 hparse
  have hagree := himports f hf
  obtain ⟨-, hforest, -⟩ := Document.evaluate_spec component.settings.imports data f
  obtain ⟨-, hforest', -⟩ := Document.evaluate_spec component'.settings.imports data f
  simp only [hforest, hforest', ← Directive.meanForest_congr hagree data]
  rw [Dialogue.ofForest_congr uri (hagree.subset (Directive.tags_meanForest _ f data))]

/-- Whatever a component asks for is imported under the tag of an element of its template. -/
theorem asksOnly_questions {uri : String} {component : Component} {data : Data} {d : Dialogue}
    (h : questions uri component data = .ok d) :
    ∃ template, Document.parse component.template = .ok template ∧ d.AsksOnly fun child =>
      ∃ tag ∈ Forest.tags template.forest, component.settings.imports.get? tag = some child := by
  unfold questions at h
  rcases hparse : Document.parse component.template with fault | template <;> rw [hparse] at h
  · cases h
  obtain ⟨f, hf, rfl⟩ := Document.parse_eq_ok_iff.1 hparse
  obtain rfl := Except.ok.inj h
  obtain ⟨-, hforest, -⟩ := Document.evaluate_spec component.settings.imports data f
  refine ⟨_, rfl, Dialogue.asksOnly_ofForest uri component.settings.imports ?_⟩
  rw [hforest, Document.forest_ofForest]
  exact fun tag htag child hchild => ⟨tag, Directive.tags_meanForest _ f data htag, hchild⟩

/-- A render below a component is one of a component that it imports under the tag of an element
of its own template. -/
theorem AsksBelow.imported {r : Renderer} {uri : String} {custom : Option Data}
    {mode : RenderMode} {run : Run} {child : String} {data : Data} {s : Run}
    (h : r.AsksBelow uri custom mode run child data s) :
    ∃ component template, r.library uri = .ok component ∧
      Document.parse component.template = .ok template ∧
      ∃ tag ∈ Forest.tags template.forest, component.settings.imports.get? tag = some child := by
  obtain ⟨component, d, hload, -, hd, hasks⟩ := h
  obtain ⟨template, hparse, honly⟩ := asksOnly_questions hd
  exact ⟨component, template, hload, hparse, hasks.asksWith honly⟩

/-! ### The same steps -/

/-- Two libraries hold components that are alike, or fail in the same way. -/
def AlikeLibraries (library library' : Library) : Prop :=
  ∀ uri, (∃ error, library uri = .error error ∧ library' uri = .error error) ∨
    ∃ c c', library uri = .ok c ∧ library' uri = .ok c' ∧ c.Alike c'

/-- The renderer over another library. -/
def withLibrary (r : Renderer) (library : Library) : Renderer := { r with library }

/-- Components that are alike conclude alike, in any library. -/
theorem conclude_withLibrary {ρ : Type} (r : Renderer) (library : Library) {c c' : Component}
    (h : c.Alike c') (uri : String) (data : Data) (mode : RenderMode) (resolved : Resolved ρ) :
    (r.withLibrary library).conclude uri c' data mode resolved =
      r.conclude uri c data mode resolved := by
  have hbehavior : (r.withLibrary library).behavior uri c' data = r.behavior uri c data := by
    simp only [behavior, h.script, withLibrary]
  have hstyle : (r.withLibrary library).style c' = r.style c := by
    funext page
    simp only [style, Settings.plugin?, h.plugins, withLibrary]
  unfold conclude
  rcases resolved.failure with _ | error
  · cases mode with
    | root => simp only [finishRoot, hbehavior, hstyle]
    | descendant => simp only [finishDescendant, hbehavior]
  · rfl

/-- Components that are alike are entered alike. -/
theorem renderEntered_withLibrary (r : Renderer) {library : Library}
    (h : AlikeLibraries r.library library) (child : RenderChild Run) (uri : String)
    (custom : Option Data) (mode : RenderMode) (run : Run) :
    (r.withLibrary library).renderEntered child uri custom mode run =
      r.renderEntered child uri custom mode run := by
  have hlibrary : (r.withLibrary library).library = library := rfl
  rw [renderEntered_eq, renderEntered_eq, hlibrary]
  rcases h uri with ⟨error, hr, hr'⟩ | ⟨c, c', hr, hr', halike⟩
  · rw [hr, hr']
  have hkey : key uri c' custom mode = key uri c custom mode := by
    rw [key, key, halike.merge, halike.template, halike.script]
  have hhit : (r.withLibrary library).hit? uri c' custom mode = r.hit? uri c custom mode := by
    funext cache
    rw [hit?, hit?, hkey]
    rfl
  have hfresh : (r.withLibrary library).renderFresh child uri c'
        (Context.merge c'.settings custom) mode (noted run custom mode) =
      r.renderFresh child uri c (Context.merge c.settings custom) mode
        (noted run custom mode) := by
    rw [renderFresh_eq, renderFresh_eq, ← halike.merge,
      ← questions_congr halike.template halike.imports]
    simp only [conclude_withLibrary r library halike]
  simp only [hr, hr', hhit, hfresh, hkey]
  rfl

/-- **In libraries that are alike a render takes the same steps.** -/
theorem renderWithin_withLibrary (r : Renderer) {library : Library}
    (h : AlikeLibraries r.library library) (n : Nat) :
    (r.withLibrary library).renderWithin n = r.renderWithin n := by
  induction n with
  | zero => rfl
  | succ n ih =>
    funext uri custom mode run
    rw [renderWithin, renderWithin, ih]
    split
    · rfl
    · simp only [r.renderEntered_withLibrary h]

/-! ### An import that a template does not use -/

/-- A library stays alike when one component gets an import that its template does not use. -/
theorem alikeLibraries_importing {library : Library} {home : String} {c : Component}
    (hhome : library home = .ok c) {tag : String} (hlacks : c.Lacks tag) (target : String) :
    AlikeLibraries library (Function.update library home (.ok (c.importing tag target))) := by
  intro uri
  by_cases huri : uri = home
  · subst huri
    exact .inr ⟨c, _, hhome, Function.update_self .., hlacks.alike_importing target⟩
  · rw [Function.update_of_ne huri]
    rcases library uri with error | other
    · exact .inl ⟨error, rfl, rfl⟩
    · exact .inr ⟨other, other, rfl, rfl, .refl other⟩

/-- **Imports are lexically scoped.**  Let no element of a component's own template have a tag.
Importing any component under this tag changes no render of any component, whatever the data, the
mode, the cache and the components above it are: neither what comes out nor what the render leaves
behind.  What the component asks for is then still imported under another tag, that of an element
of its own template. -/
theorem import_scoped (r : Renderer) {home : String} {component : Component}
    (hhome : r.library home = .ok component) {tag : String} (hlacks : component.Lacks tag)
    (target : String) :
    let r' := r.withLibrary
      (Function.update r.library home (.ok (component.importing tag target)))
    (∀ uri custom mode run, r'.renderComponent uri custom mode run =
        r.renderComponent uri custom mode run) ∧
      (∀ uri custom run, r'.render uri custom run = r.render uri custom run) ∧
      ∀ custom mode run child data s, r'.AsksBelow home custom mode run child data s →
        ∃ template, Document.parse component.template = .ok template ∧
          ∃ t ∈ Forest.preorder template.forest, ∃ e, t.element? = some e ∧
            e.is tag = false ∧ component.settings.imports.get? e.name = some child := by
  intro r'
  have hrender : ∀ uri custom mode run, r'.renderComponent uri custom mode run =
      r.renderComponent uri custom mode run := by
    intro uri custom mode run
    rw [renderComponent, renderComponent,
      r.renderWithin_withLibrary (alikeLibraries_importing hhome hlacks target)]
    rfl
  refine ⟨hrender, fun uri custom run => by rw [render, render, hrender], ?_⟩
  intro custom mode run child data s hasks
  obtain ⟨c, template, hload, hparse, name, hname, hchild⟩ := hasks.imported
  have hhome' : r'.library home = .ok (component.importing tag target) := Function.update_self ..
  obtain rfl := Except.ok.inj (hhome'.symm.trans hload)
  have hnot := hlacks.tags hparse name hname
  obtain ⟨t, ht, e, he, rfl⟩ := Forest.mem_tags.1 hname
  refine ⟨template, hparse, t, ht, e, he, hnot, ?_⟩
  rwa [Component.importing, ImportTable.get?_insert_of_not_same hnot] at hchild

/-- The hypotheses are satisfiable: a page imports what its card brings an element for, and what
the page itself puts into the card is still resolved. -/
theorem import_scoped_page :
    let page : Component := { settings := { imports := [("x-card", "card"), ("x-i", "i")] },
                              template := "<x-card><x-i></x-i></x-card>" }
    let r : Renderer := { library := Registry.library { components := [
      ("card", { template := "<x-new></x-new><slot></slot>" }), ("i", { template := "<i></i>" }),
      ("page", page)] } }
    let r' := r.withLibrary
      (Function.update r.library "page" (.ok (page.importing "X-NEW" "i")))
    page.Lacks "X-NEW" ∧ (r'.render "page" none {}).1 = (r.render "page" none {}).1 ∧
      (r.render "page" none {}).1.toOption = some "<x-new></x-new><i></i>" := by
  intro page r r'
  have hlacks : page.Lacks "X-NEW" := by decide +kernel
  have hscoped := import_scoped r (show r.library "page" = .ok page from rfl) hlacks "i"
  exact ⟨hlacks, congrArg Prod.fst (hscoped.2.1 "page" none {}), by decide +kernel⟩

end Renderer
end HtmlCompose
