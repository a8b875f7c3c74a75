/-
# What a descendant brings, in the order of discovery

A descendant hands its caller two lists beside its markup: the chains of imports below it,
and the assets for the head.  Both are told by the instances of its evaluated template in
the order in which they are discovered (`assembled_in_order`):

| list | what it is made of, in this order |
| --- | --- |
| chains | for each instance, the chain to its component, and through it the chains of the render |
| assets | those of each instance; those of the component's own document; registration and bootstrap |

Of the assets, the first of each identity is kept.

This is so for every render of a descendant that can be met, at the top or anywhere inside
another render (`Reaches`), also when the result comes from the cache.
-/
import HtmlCompose.Proofs.Render.Chains
import HtmlCompose.Proofs.Resolve.Discovery

namespace HtmlCompose

open Markup Resolve

namespace Resolve.Dialogue

variable {ρ : Type} {child : RenderChild ρ} {d : Dialogue} {p : Progress ρ} {uri : String}
  {data : Data} {s : ρ}

/-- What holds on the way to a render that a dialogue asks for, as long as something holds in which
the renders lead to it, and has held before it. -/
theorem Asks.carried (Inv P : ρ → Prop) (hP : ∀ uri data s, P (child uri data s).2 → P s)
    (hchild : ∀ uri data s, Inv s → P (child uri data s).2 → Inv (child uri data s).2)
    (h : Asks child d p uri data s) (hs : P s) : P p.run ∧ (Inv p.run → Inv s) := by
  induction h with
  | now => exact ⟨hs, id⟩
  | @later uri data unchanged next p rendered s uri' data' t hr _ ih =>
    obtain ⟨hnext, hcarried⟩ := ih hs
    have hbefore := hP uri data p.run
    have hstep := hchild uri data p.run
    rw [hr] at hbefore hstep
    exact ⟨hbefore hnext, fun hp => hcarried (hstep hp hnext)⟩

/-- What holds at the end of a dialogue, and has held before every render if it holds after it,
has held after each of them. -/
theorem Asks.after (P : ρ → Prop) (hP : ∀ uri data s, P (child uri data s).2 → P s)
    (h : Asks child d p uri data s) (hend : P (d.run child p).after.run) :
    P (child uri data s).2 := by
  induction h with
  | @now uri data unchanged next p =>
    rcases hr : child uri data p.run with ⟨error | rendered, s⟩
    · rwa [run_ask_error hr] at hend
    · rw [run_ask_ok hr] at hend
      exact run_before P hP _ _ hend
  | later hr _ ih =>
    rw [run_ask_ok hr] at hend
    exact ih hend

end Resolve.Dialogue

namespace Renderer

/-! ### Every render that can be met -/

/-- A renderer comes to render a component in some state: as the outermost one after any renders
with the same cache, or inside a render that it has come to. -/
inductive Reaches (r : Renderer) : String → Option Data → RenderMode → Run → Prop where
  | outermost (history : List Earlier) (uri : String) (custom : Option Data) (mode : RenderMode) :
    Reaches r uri custom mode (r.after history {})
  | nested {uri custom mode run child data s} : Reaches r uri custom mode run →
    refuse r.config.maxDepth run.ancestry [uri] = none →
    r.AsksBelow uri custom mode (entered run uri) child data s →
    Reaches r child (some data) .descendant s

variable {r : Renderer} {uri : String} {custom : Option Data} {mode : RenderMode} {run : Run}

/-- A render below starts with a sound cache if the one above does. -/
theorem AsksBelow.sound {child : String} {data : Data} {s : Run}
    (h : r.AsksBelow uri custom mode run child data s)
    (hclear : CollisionFree (r.library.streams s.loads)) :
    CollisionFree (r.library.streams run.loads) ∧ (r.Sound run → r.Sound s) := by
  obtain ⟨component, d, -, -, -, hasks⟩ := h
  obtain ⟨hbefore, hcarried⟩ := hasks.carried r.Sound
    (fun s => CollisionFree (r.library.streams s.loads))
    (fun uri data s hs => hs.subset (r.library.streams_subset
      (r.renderComponent_loads uri (some data) .descendant s)))
    (fun uri data s hs hclear => (r.renderComponent_warm r.config.maxDepth r.config.renderCache uri
      (some data) .descendant s hs hclear).2) hclear
  refine ⟨hbefore.subset (r.library.streams_subset (List.subset_cons_self _ _)), fun hrun => ?_⟩
  exact hcarried (hrun.noted custom mode)

/-- **Every render that can be met starts with a sound cache.** -/
theorem Reaches.sound (h : r.Reaches uri custom mode run)
    (hclear : CollisionFree (r.library.streams run.loads)) : r.Sound run := by
  induction h with
  | outermost history => exact Sound.after (fun key rendered h => by cases h) hclear
  | nested _ _ hasks ih =>
    obtain ⟨hbefore, hcarried⟩ := hasks.sound hclear
    exact hcarried (ih hbefore)

/-- The loads that a render makes where it finds nothing cached are those of its questions. -/
theorem loads_of_questions {component : Component} {d : Dialogue}
    (huri : refuse r.config.maxDepth run.ancestry [uri] = none)
    (hload : r.library uri = .ok component)
    (hmiss : r.hit? uri component custom mode (entered run uri).cache = none)
    (hd : questions uri component (Context.merge component.settings custom) = .ok d) :
    (r.renderComponent uri custom mode run).2.loads =
      (d.run r.descend ⟨noted (entered run uri) custom mode, [], []⟩).after.run.loads := by
  rw [renderComponent_eq_refuse, huri]
  simp only [renderEntered_eq, renderFresh_eq, hload, hmiss, hd]
  rcases r.conclude uri component (Context.merge component.settings custom) mode
    (d.run r.descend ⟨noted (entered run uri) custom mode, [], []⟩) with error | rendered
  · rfl
  · simp only [kept_loads]

/-- Every render inside one that can be met gives what it gives without a cache. -/
theorem Reaches.answers (h : r.Reaches uri custom mode run)
    (hclear : CollisionFree (r.library.streams (r.renderComponent uri custom mode run).2.loads))
    (huri : refuse r.config.maxDepth run.ancestry [uri] = none) {child : String} {data : Data}
    {s : Run} (hasks : r.AsksBelow uri custom mode (entered run uri) child data s) :
    (r.renderComponent child (some data) .descendant s).1 =
      r.answers r.config.maxDepth (run.ancestry ++ [uri]) child data := by
  have hstart := hclear.subset (r.library.streams_subset
    (r.renderComponent_loads uri custom mode run))
  obtain ⟨component, d, hload, hmiss, hd, hquestion⟩ := id hasks
  rw [loads_of_questions huri hload hmiss hd] at hclear
  have hafter := hquestion.after (fun s => CollisionFree (r.library.streams s.loads))
    (fun uri data s hs => hs.subset (r.library.streams_subset
      (r.renderComponent_loads uri (some data) .descendant s))) hclear
  have hbefore := hafter.subset (r.library.streams_subset
    (r.renderComponent_loads child (some data) .descendant s))
  have hancestry : s.ancestry = run.ancestry ++ [uri] :=
    hquestion.invariant (·.ancestry = run.ancestry ++ [uri]) (fun uri data t ht =>
      (r.renderComponent_ancestry uri (some data) .descendant t).trans ht) rfl
  have hsound : r.Sound s := (hasks.sound hbefore).2 (h.sound hstart)
  rw [Renderer.answers, ← hancestry]
  exact (r.renderComponent_warm r.config.maxDepth r.config.renderCache child (some data)
    .descendant s hsound hafter).1

/-! ### What a descendant brings -/

/-- A descendant that succeeds has resolved everything, and is finished from that. -/
theorem conclude_descendant {ρ : Type} {component : Component} {data : Data}
    {resolved : Resolved ρ} {rendered : Rendered}
    (h : r.conclude uri component data .descendant resolved = .ok rendered) :
    resolved.failure = none ∧ rendered = r.finishDescendant uri component data resolved.nodes
      resolved.after.head resolved.after.paths := by
  have hend := (conclude_eq_ok h).1
  rw [conclude, hend] at h
  exact ⟨hend, (Except.ok.inj h).symm⟩

/-- **What a descendant brings is in the order of discovery.**  Let a renderer come to render a
descendant, at the top or inside another render, with what earlier renders have left in the cache;
and let the render succeed.  The instances of the evaluated template are discovered, and each of
them is given what the renderer gives for it there, with or without the cache.  The chains of the
result are those of the instances, one instance after another.  Its assets are those of the
instances, of the component's own document, and of its behavior, the first of each identity.
The only assumption is that SHA-256 has told apart what has been digested. -/
theorem assembled_in_order {rendered : Rendered} (hreached : r.Reaches uri custom .descendant run)
    (hclear : CollisionFree (r.library.streams
      (r.renderComponent uri custom .descendant run).2.loads))
    (h : (r.renderComponent uri custom .descendant run).1 = .ok rendered) :
    ∃ component template instances, r.library uri = .ok component ∧
      Document.parse component.template = .ok template ∧
      let imports := component.settings.imports
      let data := Context.merge component.settings custom
      let evaluated := (template.evaluate imports data).forest
      let answers := r.answers r.config.maxDepth (run.ancestry ++ [uri])
      let resolved := resolveForest ⟨uri, imports, Dialogue.answering answers⟩ evaluated
        ⟨(), [], []⟩
      let own := (Head.split resolved.nodes).1
      let body := (Head.split resolved.nodes).2
      discoverForest uri imports answers evaluated = some instances ∧
      (∀ child data s, r.AsksBelow uri custom .descendant (entered run uri) child data s →
        (r.renderComponent child (some data) .descendant s).1 = answers child data) ∧
      rendered.importPaths =
        instances.flatMap (fun i => [i.uri] :: i.rendered.importPaths.map (i.uri :: ·)) ∧
      rendered.head = Head.Assets.firsts
        (instances.flatMap (·.rendered.head) ++ own ++ r.behavior uri component data) ∧
      rendered.markup = Forest.serialize body := by
  obtain ⟨huri, -⟩ := renderComponent_ok h
  have hsound := hreached.sound (hclear.subset (r.library.streams_subset
    (r.renderComponent_loads uri custom .descendant run)))
  -- the result may come from the cache, but a cold render gives it too, and that one resolves
  have hcold : r.cold r.config.maxDepth run.ancestry uri custom .descendant = .ok rendered :=
    (r.renderComponent_warm r.config.maxDepth r.config.renderCache uri custom .descendant run
      hsound hclear).1.symm.trans h
  rw [cold_eq] at hcold
  split_ifs at hcold
  rcases hload : r.library uri with error | component <;> rw [hload] at hcold
  · cases hcold
  simp only [coldEntered, questions] at hcold
  rcases hparse : Document.parse component.template with fault | template <;> rw [hparse] at hcold
  · cases hcold
  simp only at hcold
  rw [← Dialogue.resolveForest_eq_run
    ⟨uri, component.settings.imports, Dialogue.answering _⟩] at hcold
  obtain ⟨hend, hfinished⟩ := conclude_descendant hcold
  obtain ⟨instances, hinstances, hpaths, hhead⟩ := resolveForest_discovered hend
  refine ⟨component, template, instances, rfl, hparse, hinstances,
    fun child data s hasks => hreached.answers hclear huri hasks, ?_, ?_, ?_⟩
  · rw [hfinished]
    exact hpaths
  · rw [hfinished, ← Head.Assets.extend_nil, Head.Assets.extend_append, Head.Assets.extend_append,
      ← hhead]
    rfl
  · rw [hfinished]
    rfl

/-- The hypotheses are satisfiable: a card takes the second one of its caller's elements first, and
the third one not at all.  It comes from the cache. -/
theorem assembled_in_order_page :
    let page : Component := {
      settings := { imports := [("x-c", "card"), ("x-a", "a"), ("x-b", "b")] },
      template := "<x-c><x-a slot=a></x-a><x-b slot=b></x-b><x-b></x-b></x-c>" }
    let registry : Registry := { components := [
      ("card", { template := "<slot name=b></slot><slot name=a></slot>" }),
      ("a", { template := "<link href=a>" }),
      ("b", { settings := { imports := [("x-a", "a")] }, template := "<link href=b><x-a></x-a>" }),
      ("page", page)] }
    let r : Renderer := ⟨registry.library, {}, {}⟩
    let run : Run := r.after [⟨32, true, "card", none, .descendant⟩] {}
    ∃ (rendered : Rendered) (instances : List Instance),
      (r.renderComponent "page" none .descendant run).1 = .ok rendered ∧
      instances.map Instance.uri = ["card", "b", "a"] ∧
      rendered.importPaths =
        instances.flatMap (fun i => [i.uri] :: i.rendered.importPaths.map (i.uri :: ·)) ∧
      rendered.importPaths = [["card"], ["b"], ["b", "a"], ["a"]] ∧
      rendered.head.map (·.key) = [.link "a", .link "b"] := by
  intro page registry r run
  obtain ⟨hsome, hclear⟩ :
      (r.renderComponent "page" none .descendant run).1.toOption.any (fun x => decide (
          x.importPaths = [["card"], ["b"], ["b", "a"], ["a"]] ∧
            x.head.map (·.key) = [.link "a", .link "b"])) = true ∧
        CollisionFree (r.library.streams
          (r.renderComponent "page" none .descendant run).2.loads) := by decide +kernel
  rcases h : (r.renderComponent "page" none .descendant run).1 with error | rendered <;>
    rw [h] at hsome
  · cases hsome
  obtain ⟨hchains, hkeys⟩ := of_decide_eq_true hsome
  obtain ⟨component, template, instances, hload, hparse, hdiscovered, -, hpaths, -⟩ :=
    assembled_in_order (.outermost [⟨32, true, "card", none, .descendant⟩] "page" none .descendant)
      hclear h
  obtain rfl : page = component := Except.ok.inj hload
  rw [show run.ancestry = [] from r.after_ancestry _ {} rfl] at hdiscovered
  have huris : (Document.parse page.template).toOption.bind (fun template =>
      (discoverForest "page" page.settings.imports (r.answers 32 ["page"])
        (template.evaluate page.settings.imports
          (Context.merge page.settings none)).forest).map (·.map Instance.uri)) =
      some ["card", "b", "a"] := by decide +kernel
  rw [hparse] at huris
  refine ⟨rendered, instances, rfl, ?_, hpaths, hchains, hkeys⟩
  have hmapped := congrArg (Option.map (List.map Instance.uri)) hdiscovered
  exact Option.some.inj (hmapped.symm.trans huris)

end Renderer
end HtmlCompose
