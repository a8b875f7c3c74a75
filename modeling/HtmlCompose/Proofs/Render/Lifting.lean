/-
# Every head asset reaches the page once

What a component has at its top that belongs into a head goes up, as text, through every
render above it to the head of the page.  On the way lists drop what they hold already,
and the page drops what its head holds already, by the identity of an asset.  So an asset
with an identity could be lost at any step, or come twice if one step tells by the text
what another one tells by the node.

`lifted_once` says that neither happens.  It is put together from three facts: no list on
the way up loses an identity (`Composition.hasKey_head`), the list that reaches the page
holds none twice (`Composition.distinct_assets`), and a head that gets a list of that kind
holds one node of each identity (`Head.count_identity`).
-/
import HtmlCompose.Proofs.Render.Composition
import HtmlCompose.Render.Registry

namespace HtmlCompose

open Markup Resolve

namespace Renderer

/-- No component of the library has a behavior script, and none asks for a stylesheet. -/
def Plain (r : Renderer) : Prop :=
  ∀ uri component, r.library uri = .ok component →
    component.script = none ∧ component.settings.plugin? r.config.cssPlugin = none

variable {r : Renderer} {c : Composition}

/-- Without scripts in the library no render of a composition brings a behavior. -/
theorem Plain.behavior (hr : r.Plain) (hc : r.Composed c) : ∀ m ∈ c.all, m.behavior r = [] := by
  intro m hm
  rw [Composition.behavior, Renderer.behavior, (hr _ _ (hc m hm)).1]
  rfl

/-- Without behavior and style the assets of a page are those that come from below. -/
theorem Plain.assets (hr : r.Plain) (hc : r.Composed c) :
    c.assets r = Composition.gather r [] c.children := by
  have hmem : c ∈ c.all := by
    rw [Composition.all_eq]
    exact List.mem_cons_self
  rw [Composition.assets_eq, hr.behavior hc c hmem, style, (hr _ _ (hc c hmem)).2]
  rfl

/-- The assets of a page are read back as they are if those of all descendants are. -/
theorem Plain.readsBack (hr : r.Plain) (hc : r.Composed c)
    (hread : ∀ m ∈ c.descendants, ∀ a ∈ m.collected, a.ReadsBack) :
    ∀ a ∈ c.assets r, a.ReadsBack := by
  have hnone : ∀ a ∈ ([] : Head.Assets), a.ReadsBack := fun a ha => absurd ha List.not_mem_nil
  rw [hr.assets hc]
  refine Composition.gather_induction (P := fun l => ∀ a ∈ l, a.ReadsBack) hnone ?_ hnone
    fun m hm => ⟨hread m hm, ?_⟩
  · intro l others hl hothers a ha
    exact (Head.Assets.mem_extend ha).elim (hl a) (hothers a)
  · rw [hr.behavior hc m (c.all_eq ▸ List.mem_cons_of_mem c hm)]
    exact hnone

/-- **No head asset is lost or doubled.**  After any renders with the same cache, let a page of
components without behavior scripts and stylesheets be rendered.  If the assets of the renders
below are read back as they are, and no two nodes that the page has for its head by itself have
one identity, then the head of the page has exactly one node of the identity of each asset, at
whatever depth and in whatever content it has been found. -/
theorem lifted_once (r : Renderer) (history : List Earlier) (uri : String)
    (custom : Option Data) {html : String} (hr : r.Plain)
    (hclear : CollisionFree (r.library.streams
      (r.render uri custom (r.after history {})).2.loads))
    (h : (r.render uri custom (r.after history {})).1 = .ok html) :
    ∃ rendered made, r.compose (r.config.maxDepth + 1) uri custom .root = .ok (rendered, made) ∧
      html = Forest.serialize (made.page r) ∧
      ((∀ m ∈ made.descendants, ∀ a ∈ m.collected, a.ReadsBack) →
        (Head.presentKeys (Head.residents made.nodes)).Nodup →
        ∀ m ∈ made.descendants, ∀ a ∈ m.collected, a.key ≠ .unkeyed →
          ∃ head, Head.childrenOf? (made.page r) "head" = some head ∧
            (head.map Head.AssetKey.of).count a.key = 1) := by
  obtain ⟨rendered, made, hmade, hhtml⟩ := r.render_composed history uri custom hclear h
  obtain ⟨hcomposed, hmarkup, hfault⟩ := compose_spec hmade
  refine ⟨rendered, made, hmade, hhtml.trans hmarkup, fun hread hresidents m hm a ha hkey => ?_⟩
  have hhas : (made.assets r).hasKey a.key := by
    rw [hr.assets hcomposed]
    exact Composition.hasKey_gather (.inr ⟨m, hm, Head.Assets.hasKey_iff.2 ⟨a, ha, rfl⟩⟩)
  have hne : made.assets r ≠ [] := fun hnil => by
    rw [hnil] at hhas
    cases hhas
  exact ⟨_, Head.childrenOf?_merge (made.distinct_assets r) hne hfault,
    Head.count_identity (made.distinct_assets r) (hr.readsBack hcomposed hread) hresidents hkey
      hhas⟩

/-- The hypotheses are satisfiable: a card brings a link and a badge, the page puts another badge
into the card, the card comes from the cache, and all of them bring the link. -/
theorem lifted_once_page :
    let imports : ImportTable := [("x-card", "card"), ("x-badge", "badge")]
    let registry : Registry := { components := [
      ("page", { settings := { imports },
                 template := "<link href=\"c.css\"><x-card><x-badge></x-badge></x-card>" }),
      ("card", { settings := { imports },
                 template := "<link href=\"c.css\"><x-badge></x-badge><slot></slot>" }),
      ("badge", { template := "<link href=\"c.css\"><style>b\x7b\x7d</style><b></b>" })] }
    let r : Renderer := ⟨registry.library, {}, {}⟩
    let history : List Earlier := [⟨32, true, "card", none, .descendant⟩]
    ∃ html rendered made, (r.render "page" none (r.after history {})).1 = .ok html ∧
      r.compose 33 "page" none .root = .ok (rendered, made) ∧
      html = Forest.serialize (made.page r) ∧
      ∃ head, Head.childrenOf? (made.page r) "head" = some head ∧
        (head.map Head.AssetKey.of).count (.style "b\x7b\x7d") = 1 := by
  intro imports registry r history
  have hplain : r.Plain := by
    intro uri component h
    have hentry := Registry.mem_of_library h
    simp only [registry, List.mem_cons, List.not_mem_nil, or_false, Prod.mk.injEq] at hentry
    rcases hentry with ⟨-, rfl⟩ | ⟨-, rfl⟩ | ⟨-, rfl⟩ <;> exact ⟨rfl, rfl⟩
  obtain ⟨hsome, hclear⟩ : (r.render "page" none (r.after history {})).1.toOption.isSome = true ∧
      CollisionFree (r.library.streams (r.render "page" none (r.after history {})).2.loads) := by
    decide +kernel
  have hcheck : (r.compose 33 "page" none .root).toOption.any (fun x => decide (
      (∀ m ∈ x.2.descendants, ∀ a ∈ m.collected, a.ReadsBack) ∧
        (Head.presentKeys (Head.residents x.2.nodes)).Nodup ∧
        ∃ m ∈ x.2.descendants, ∃ a ∈ m.collected, a.key = .style "b\x7b\x7d")) = true := by
    decide +kernel
  obtain ⟨x, hx, hread, hresidents, m, hm, a, ha, hkey⟩ := exists_ok_of_any hcheck
  rcases h : (r.render "page" none (r.after history {})).1 with error | html <;> rw [h] at hsome
  · cases hsome
  obtain ⟨rendered, made, hmade, hhtml, hlift⟩ :=
    lifted_once r history "page" none hplain hclear h
  obtain rfl := Except.ok.inj (hmade.symm.trans hx)
  obtain ⟨head, hhead, hcount⟩ := hlift hread hresidents m hm a ha (by simp [hkey])
  exact ⟨html, rendered, made, rfl, hx, hhtml, head, hhead, hkey ▸ hcount⟩

end Renderer
end HtmlCompose
