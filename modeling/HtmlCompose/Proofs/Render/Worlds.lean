/-
# What a fingerprint leaves out

A fingerprint covers the data, the template, the script and the mode of one render.
The result of the render depends on more than that:

| not covered | what it decides |
| --- | --- |
| the import table | which elements are instances, and of which components |
| the components below | the markup in the place of the instances |
| the configuration of the stylesheet plugin | the stylesheet of a root |
| the window property of behaviors | the scripts of a component with a script |
| the depth limit | whether a component below is refused |

Each of them alone can change a result under one fingerprint, and then the cache gives
back a result that was made from something else (`fingerprint_too_small`).

Together they are all that is missing.  Where two worlds agree on them at every load of
a render, and on the fingerprints of these loads, both make the same steps with any
cache (`Agreed.render_eq`).  So they give the same when nothing is cached, and they may
share a cache (`result_of_agreed`).
-/
import HtmlCompose.Proofs.Render.Scope
import HtmlCompose.Proofs.Render.Warmth

namespace HtmlCompose

open Markup Resolve

namespace Renderer

/-! ### Agreement -/

/-- Two worlds agree on what a render of a component is made from, as far as the fingerprint tells
it and beyond. -/
structure SameInputs (r r' : Renderer) (component component' : Component) (custom : Option Data)
    (mode : RenderMode) : Prop where
  fingerprint : Fingerprint.of (Context.merge component.settings custom) component.template
      component.script mode =
    Fingerprint.of (Context.merge component'.settings custom) component'.template
      component'.script mode
  imports : ∀ tag, component.settings.imports.get? tag = component'.settings.imports.get? tag
  enhancement : component.script ≠ none →
    r.config.enhancementGlobal = r'.config.enhancementGlobal
  style : mode = .root → component.settings.plugin? r.config.cssPlugin =
    component'.settings.plugin? r'.config.cssPlugin

/-- Two worlds agree on a load: both have a component with the same inputs, or both fail alike. -/
def Agree (r r' : Renderer) (load : Load) : Prop :=
  ∀ uri, load.uri? = some uri →
    (∃ error, r.library uri = .error error ∧ r'.library uri = .error error) ∨
    ∃ component component', r.library uri = .ok component ∧ r'.library uri = .ok component' ∧
      SameInputs r r' component component' load.custom load.mode

/-- The loads that a cold render makes. -/
def coldLoads (r : Renderer) (limit : Nat) (stack : List String) (uri : String)
    (custom : Option Data) (mode : RenderMode) : List Load :=
  ((r.tuned limit false).renderComponent uri custom mode { ancestry := stack }).2.loads

/-- Two worlds with the same plugins agree on some loads, and what these digest is told apart by the
digests. -/
structure Agreed (r r' : Renderer) (loads : List Load) : Prop where
  plugins : r.plugins = r'.plugins
  agree : ∀ load ∈ loads, r.Agree r' load
  fits : ∀ s ∈ r.library.streams loads, s.length < 2 ^ 64
  clear : CollisionFree (r.library.streams loads ++ r'.library.streams loads)

/-- Worlds that agree on some loads agree on fewer. -/
theorem Agreed.subset {r r' : Renderer} {loads loads' : List Load} (h : r.Agreed r' loads')
    (hsub : loads ⊆ loads') : r.Agreed r' loads where
  plugins := h.plugins
  agree load hload := h.agree load (hsub hload)
  fits s hs := h.fits s (r.library.streams_subset hsub hs)
  clear := h.clear.subset (List.append_subset.2
    ⟨List.subset_append_of_subset_left _ (r.library.streams_subset hsub),
      List.subset_append_of_subset_right _ (r'.library.streams_subset hsub)⟩)

/-- Equal fingerprints of one load are equal data, templates and scripts. -/
theorem Agreed.covered {r r' : Renderer} {loads : List Load} (h : r.Agreed r' loads) {load : Load}
    (hload : load ∈ loads) {uri : String} (huri : load.uri? = some uri)
    {component component' : Component} (hcomponent : r.library uri = .ok component)
    (hcomponent' : r'.library uri = .ok component')
    (hsame : SameInputs r r' component component' load.custom load.mode) :
    Context.merge component.settings load.custom = Context.merge component'.settings load.custom ∧
      component.template = component'.template ∧ component.script = component'.script := by
  have hmem := r.library.mem_streams hload huri hcomponent
  have hmem' := r'.library.mem_streams hload huri hcomponent'
  obtain ⟨hdata, htemplate, hscript, -⟩ := Fingerprint.stream_injective (h.fits _ hmem)
    (h.clear _ (List.mem_append_left _ hmem) _ (List.mem_append_right _ hmem')
      (Fingerprint.digest_eq_of_of_eq hsame.fingerprint))
  exact ⟨hdata, htemplate, hscript⟩

/-! ### The same steps in both worlds -/

/-- Worlds with the same inputs conclude alike. -/
theorem conclude_congr {ρ : Type} {r r' : Renderer} {component component' : Component}
    {custom : Option Data} {mode : RenderMode} (hplugins : r.plugins = r'.plugins)
    (hscript : component.script = component'.script)
    (hsame : SameInputs r r' component component' custom mode) (uri : String) (data : Data)
    (resolved : Resolved ρ) :
    r.conclude uri component data mode resolved =
      r'.conclude uri component' data mode resolved := by
  have hbehavior : r.behavior uri component data = r'.behavior uri component' data := by
    unfold behavior
    rw [← hplugins, ← hscript]
    rcases hs : component.script with _ | source
    · rfl
    · rw [hsame.enhancement (by rw [hs]; exact Option.some_ne_none _)]
  unfold conclude
  rcases resolved.failure with _ | error
  · cases mode with
    | root => simp only [finishRoot, style, hbehavior, hsame.style rfl, hplugins]
    | descendant => simp only [finishDescendant, hbehavior]
  · rfl

/-- Worlds that agree on the loads of an entered render make the same steps. -/
theorem Agreed.entered_eq {r r' : Renderer} {limit : Nat} {cached : Bool} {stack : List String}
    {child child' : RenderChild Run} (hloads : ∀ uri data s, s.loads ⊆ (child uri data s).2.loads)
    (hkeep : ∀ uri data s, (child uri data s).2.ancestry = s.ancestry)
    (hchild : ∀ uri data s, s.ancestry = stack → r.Agreed r' (child uri data s).2.loads →
      child uri data s = child' uri data s)
    {uri : String} {custom : Option Data} {mode : RenderMode} {run : Run}
    (hrun : run.ancestry = stack) (huri : stack.getLast? = some uri)
    (h : r.Agreed r' ((r.tuned limit cached).renderEntered child uri custom mode run).2.loads) :
    (r.tuned limit cached).renderEntered child uri custom mode run =
      (r'.tuned limit cached).renderEntered child' uri custom mode run := by
  let load : Load := ⟨run.ancestry, custom, mode⟩
  have huri' : load.uri? = some uri := (congrArg List.getLast? hrun).trans huri
  have hload : load ∈ ((r.tuned limit cached).renderEntered child uri custom mode run).2.loads :=
    renderEntered_keeps _ (load ∈ ·.loads) (fun key rendered s hs => by rwa [kept_loads])
      (fun uri data s hs => hloads uri data s hs) uri custom mode run List.mem_cons_self
  rcases h.agree load hload uri huri' with ⟨error, hr, hr'⟩ |
    ⟨component, component', hr, hr', hsame⟩
  · simp only [renderEntered_eq, tuned_library, hr, hr']
  obtain ⟨hdata, htemplate, hscript⟩ := h.covered hload huri' hr hr' hsame
  replace hdata : Context.merge component.settings custom =
    Context.merge component'.settings custom := hdata
  replace hsame : r.SameInputs r' component component' custom mode := hsame
  have hkey : key uri component custom mode = key uri component' custom mode :=
    congrArg (Prod.mk uri) hsame.fingerprint
  have hhit : (r.tuned limit cached).hit? uri component custom mode run.cache =
      (r'.tuned limit cached).hit? uri component' custom mode run.cache := by
    rw [hit?, hit?, hkey]
    rfl
  simp only [renderEntered_eq, tuned_library, hr, hr', ← hhit] at h ⊢
  rcases hfound : (r.tuned limit cached).hit? uri component custom mode run.cache with _ | rendered
  swap
  · rfl
  rw [hfound] at h
  simp only [renderFresh_eq, tuned_conclude, ← hdata, ← hkey,
    ← questions_congr htemplate fun _ _ tag _ => hsame.imports tag] at h ⊢
  rcases hd : questions uri component (Context.merge component.settings custom) with error | d
  · rfl
  rw [hd] at h
  simp only [← conclude_congr h.plugins hscript hsame] at h ⊢
  have hend : r.Agreed r' (d.run child ⟨noted run custom mode, [], []⟩).after.run.loads := by
    rcases hc : r.conclude uri component (Context.merge component.settings custom) mode
      (d.run child ⟨noted run custom mode, [], []⟩) with error | rendered <;>
      simpa only [hc, kept_loads] using h
  have hsteps := d.run_congr (·.ancestry = stack) (fun s => r.Agreed r' s.loads)
    (fun uri data s hs => hs.subset (hloads uri data s)) hchild
    (fun uri data s hs => (hkeep uri data s).trans hs) ⟨noted run custom mode, [], []⟩ hrun hend
  rw [← hsteps]
  rfl

/-- **Worlds that agree on the loads of a render make the same steps**, with any cache. -/
theorem Agreed.render_eq {r r' : Renderer} {limit : Nat} {cached : Bool} {uri : String}
    {custom : Option Data} {mode : RenderMode} {run : Run}
    (h : r.Agreed r' ((r.tuned limit cached).renderComponent uri custom mode run).2.loads) :
    (r.tuned limit cached).renderComponent uri custom mode run =
      (r'.tuned limit cached).renderComponent uri custom mode run := by
  obtain ⟨stack, hstack⟩ : ∃ stack, run.ancestry = stack := ⟨_, rfl⟩
  induction stack using below_induction limit generalizing uri custom mode run with
  | step stack ih =>
    rw [renderComponent_eq, tuned_maxDepth] at h
    rw [renderComponent_eq, renderComponent_eq, tuned_maxDepth, tuned_maxDepth]
    split_ifs at h ⊢ with hcycle hdepth
    · rfl
    · rfl
    have hlimit : stack.length ≤ limit := hstack ▸ Nat.le_of_not_lt hdepth
    have hentered : (r.tuned limit cached).renderEntered (r.tuned limit cached).descend uri
          custom mode (entered run uri) =
        (r'.tuned limit cached).renderEntered (r'.tuned limit cached).descend uri custom mode
          (entered run uri) := Agreed.entered_eq
      (fun uri data s => renderComponent_loads _ uri (some data) .descendant s)
      (fun uri data s => renderComponent_ancestry _ uri (some data) .descendant s)
      (fun child data s hs hagreed => ih hlimit uri hagreed hs)
      (by rw [entered, hstack]) List.getLast?_concat h
    rw [hentered]

/-! ### Sharing a cache -/

/-- What renders in several worlds, each with a fresh session, leave in a cache that they share. -/
def shared (history : List (Renderer × Earlier)) (run : Run) : Run :=
  history.foldl (fun run w => ((w.1.tuned w.2.maxDepth w.2.renderCache).renderComponent w.2.uri
    w.2.custom w.2.mode { run with ancestry := [] }).2) run

/-- Sharing a cache forgets no load. -/
theorem shared_loads (history : List (Renderer × Earlier)) (run : Run) :
    run.loads ⊆ (shared history run).loads := by
  induction history generalizing run with
  | nil => exact List.Subset.refl _
  | cons w history ih =>
    exact List.Subset.trans
      (renderComponent_loads _ w.2.uri w.2.custom w.2.mode { run with ancestry := [] }) (ih _)

/-- Worlds that agree with one of them leave what this one leaves. -/
theorem shared_eq_after {r : Renderer} {history : List (Renderer × Earlier)} {run : Run}
    (h : ∀ w ∈ history, w.1.Agreed r (shared history run).loads) :
    shared history run = r.after (history.map (·.2)) run := by
  induction history generalizing run with
  | nil => rfl
  | cons w history ih =>
    let first (r : Renderer) : Run := ((r.tuned w.2.maxDepth w.2.renderCache).renderComponent
      w.2.uri w.2.custom w.2.mode { run with ancestry := [] }).2
    have hfirst : first w.1 = first r := congrArg Prod.snd
      ((h w List.mem_cons_self).subset (shared_loads history (first w.1))).render_eq
    calc shared (w :: history) run
      _ = shared history (first w.1) := rfl
      _ = r.after (history.map (·.2)) (first w.1) :=
        ih fun w' hw' => h w' (List.mem_cons_of_mem w hw')
      _ = r.after (history.map (·.2)) (first r) := by rw [hfirst]
      _ = r.after ((w :: history).map (·.2)) run := rfl

/-- **The same inputs at every load give the same result.**  The inputs are what the fingerprints
cover, told by their being the same, and what the fingerprints leave out.  Worlds that agree on
these at the loads of a cold render give the same; and worlds that agree on them at all loads made
with a cache that they share give what they give with no cache at all. -/
theorem result_of_agreed (r : Renderer) :
    (∀ (w : Renderer) (limit : Nat) (stack : List String) (uri : String) (custom : Option Data)
      (mode : RenderMode), w.Agreed r (w.coldLoads limit stack uri custom mode) →
        w.cold limit stack uri custom mode = r.cold limit stack uri custom mode) ∧
      ∀ (history : List (Renderer × Earlier)) (uri : String) (custom : Option Data)
        (mode : RenderMode), (∀ w ∈ history, w.1.Agreed r (shared history {}).loads) →
          CollisionFree (r.library.streams
            ((r.renderComponent uri custom mode (shared history {})).2.loads ++
              (r.renderComponent uri custom mode {}).2.loads)) →
          (r.renderComponent uri custom mode (shared history {})).1 =
            (r.renderComponent uri custom mode {}).1 := by
  refine ⟨fun w limit stack uri custom mode hagreed => congrArg Prod.fst hagreed.render_eq,
    fun history uri custom mode hagreed hclear => ?_⟩
  rw [shared_eq_after hagreed] at hclear ⊢
  exact r.after_result _ uri custom mode hclear

/-- The hypotheses are satisfiable: two worlds differ in a component that the page does not
reach, and the second one finds the page that the first one has made. -/
theorem result_of_agreed_page :
    let world (other : String) : Renderer := {
      library := Registry.library { components := [("card", { template := "<p></p>" }),
        ("other", { template := other }),
        ("page", { settings := { imports := [("x-card", "card")] },
                   template := "<x-card></x-card>" })] } }
    let history : List (Renderer × Earlier) := [(world "<i></i>", ⟨32, true, "page", none, .root⟩)]
    (world "<i></i>").cold 32 [] "page" none .root =
        (world "<b></b>").cold 32 [] "page" none .root ∧
      ((world "<b></b>").renderComponent "page" none .root (shared history {})).1 =
        ((world "<b></b>").renderComponent "page" none .root {}).1 := by
  intro world history
  have hagree : ∀ loads : List Load,
      (∀ load ∈ loads, load.uri? = some "page" ∨ load.uri? = some "card") →
        ∀ load ∈ loads, (world "<i></i>").Agree (world "<b></b>") load := by
    intro loads huris load hload uri huri
    refine .inr ?_
    rcases huris load hload with h | h <;> obtain rfl := Option.some.inj (huri.symm.trans h) <;>
      exact ⟨_, _, rfl, rfl, rfl, fun _ => rfl, fun _ => rfl, fun _ => rfl⟩
  obtain ⟨hcold, hshared⟩ := result_of_agreed (world "<b></b>")
  refine ⟨hcold _ _ _ _ _ _ ⟨rfl, hagree _ ?_, ?_, ?_⟩, hshared _ _ _ _ ?_ ?_⟩
  · decide +kernel
  · decide +kernel
  · decide +kernel
  · intro w hw
    obtain rfl := List.mem_singleton.1 hw
    exact ⟨rfl, hagree _ (by decide +kernel), by decide +kernel, by decide +kernel⟩
  · decide +kernel

/-! ### Results of something else -/

/-- The fingerprint computed for a render of an address, if there is a component. -/
def fingerprint? (r : Renderer) (uri : String) (custom : Option Data) (mode : RenderMode) :
    Option Fingerprint :=
  (r.library uri).toOption.map fun component => (key uri component custom mode).2

/-- Two worlds with the same plugins give different results under one fingerprint. -/
def Confused (r r' : Renderer) (uri : String) (mode : RenderMode) : Prop :=
  r.plugins = r'.plugins ∧ r.fingerprint? uri none mode = r'.fingerprint? uri none mode ∧
    r.cold r.config.maxDepth [] uri none mode ≠ r'.cold r'.config.maxDepth [] uri none mode

/-- With the cache of a first world a second one gives what it does not give by itself. -/
def Stale (r r' : Renderer) (uri : String) (mode : RenderMode) : Prop :=
  (r'.renderComponent uri none mode (r.renderComponent uri none mode {}).2).1 ≠
    (r'.renderComponent uri none mode {}).1

/-- Outcomes that differ with their errors left out are different. -/
theorem ne_of_toOption_ne {α : Type} {a b : Except RenderError α}
    (h : a.toOption ≠ b.toOption) : a ≠ b :=
  fun heq => h (congrArg Except.toOption heq)

/-- A page with a card in it. -/
def carded (imports : ImportTable) (card : String) (maxDepth : Nat) : Renderer where
  library := Registry.library { components := [("card", { template := card }),
    ("page", { settings := { imports }, template := "<x-card></x-card>" })] }
  config := { maxDepth }

/-- A page with a stylesheet. -/
def styled (preflight : String) : Renderer where
  library := Registry.library { components := [("page", {
    settings := { plugins := [("utility-css", .object [("preflight", .string preflight)])] },
    template := "" })] }

/-- A page with a script. -/
def scripted (enhancementGlobal : String) : Renderer where
  library := Registry.library { components := [("page", { template := "", script := some "f" })] }
  config := { enhancementGlobal }

/-- A fingerprint tells neither the import table, nor the component below, nor the depth limit, nor
the configuration of the stylesheet, nor the window property.  After a component has been replaced,
or with another window property, the cache gives back what the first world has made. -/
theorem fingerprint_too_small :
    Confused (carded [("x-card", "card")] "" 32) (carded [] "" 32) "page" .root ∧
      Confused (carded [("x-card", "card")] "" 32) (carded [("x-card", "card")] "a" 32)
        "page" .root ∧
      Confused (carded [("x-card", "card")] "" 32) (carded [("x-card", "card")] "" 0)
        "page" .root ∧
      Confused (styled "") (styled "a") "page" .root ∧
      Confused (scripted "f") (scripted "g") "page" .descendant ∧
      Stale (carded [("x-card", "card")] "" 32) (carded [("x-card", "card")] "a" 32)
        "page" .root ∧
      Stale (scripted "f") (scripted "g") "page" .descendant := by
  refine ⟨⟨rfl, ?_, ne_of_toOption_ne ?_⟩, ⟨rfl, ?_, ne_of_toOption_ne ?_⟩,
    ⟨rfl, ?_, ne_of_toOption_ne ?_⟩, ⟨rfl, ?_, ne_of_toOption_ne ?_⟩,
    ⟨rfl, ?_, ne_of_toOption_ne ?_⟩, ne_of_toOption_ne ?_, ne_of_toOption_ne ?_⟩ <;>
    decide +kernel

end Renderer
end HtmlCompose
