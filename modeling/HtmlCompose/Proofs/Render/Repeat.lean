/-
# A repeated render

A cache only grows: what a render has found or made stays under its key, whatever is
rendered after it (`shared_keeps`).  So the second render of a component with the same
data, by a renderer that uses the cache, is a single look into it:

| of the run | what the second render does to it |
| --- | --- |
| the loads | one is noted, of the component itself |
| the cache | nothing |
| the components above | nothing |

The chains of the result are checked once more, but where they stand now they have stood
before (`renderComponent_admitted`).  The key is the same because the data is, so nothing
is assumed about digests.
-/
import HtmlCompose.Proofs.Render.Chains
import HtmlCompose.Proofs.Render.Worlds

namespace HtmlCompose
namespace Renderer

variable {r : Renderer} {uri : String} {custom : Option Data} {mode : RenderMode} {run : Run}
  {k : String × Fingerprint} {rendered : Rendered}

/-! ### A cache only grows -/

/-- No render alters or removes what is cached. -/
theorem renderComponent_cached (r : Renderer) (uri : String) (custom : Option Data)
    (mode : RenderMode) (run : Run) (h : run.cache.get? k = some rendered) :
    (r.renderComponent uri custom mode run).2.cache.get? k = some rendered := by
  refine r.renderComponent_keeps (·.cache.get? k = some rendered) (fun s ancestry hs => hs)
    (fun s custom mode hs => hs) (fun key new s hs => ?_) uri custom mode run h
  rw [kept_get?, hs, Option.some_or]

/-- Neither do any renders that share the cache. -/
theorem shared_keeps (history : List (Renderer × Earlier)) (h : run.cache.get? k = some rendered) :
    (shared history run).cache.get? k = some rendered := by
  induction history generalizing run with
  | nil => exact h
  | cons w history ih =>
    exact ih ((w.1.tuned w.2.maxDepth w.2.renderCache).renderComponent_cached w.2.uri w.2.custom
      w.2.mode { run with ancestry := [] } h)

/-! ### A hit -/

/-- **A render that finds a result which may stand here gives it**, and all that it leaves is the
load of its component. -/
theorem renderComponent_hit {component : Component} (hload : r.library uri = .ok component)
    (huri : refuse r.config.maxDepth run.ancestry [uri] = none)
    (hhit : r.hit? uri component custom mode run.cache = some rendered)
    (hpaths : ∀ path ∈ rendered.importPaths,
      refuse r.config.maxDepth (run.ancestry ++ [uri]) path = none) :
    r.renderComponent uri custom mode run =
      (.ok rendered, { run with loads := ⟨run.ancestry ++ [uri], custom, mode⟩ :: run.loads }) := by
  have hrefusal : r.refusal? (entered run uri).ancestry rendered.importPaths = none :=
    refusal?_eq_none_iff.2 hpaths
  have hfound : r.hit? uri component custom mode (entered run uri).cache = some rendered := hhit
  rw [renderComponent_eq_refuse, huri]
  simp only [renderEntered_eq, hload, hfound, hrefusal]
  rfl

/-- **What has once been given is found again**, in every run with the same components above and at
least what has been cached. -/
theorem renderComponent_again (hcache : r.config.renderCache = true)
    (h : (r.renderComponent uri custom mode run).1 = .ok rendered) (later : Run)
    (hancestry : later.ancestry = run.ancestry)
    (hkept : ∀ k found, (r.renderComponent uri custom mode run).2.cache.get? k = some found →
      later.cache.get? k = some found) :
    r.renderComponent uri custom mode later =
      (.ok rendered,
        { later with loads := ⟨later.ancestry ++ [uri], custom, mode⟩ :: later.loads }) := by
  obtain ⟨huri, component, hload, hstored, -⟩ := renderComponent_ok h
  have hadmitted := renderComponent_admitted h
  rw [← hancestry] at huri hadmitted
  refine renderComponent_hit hload huri ?_ hadmitted
  rw [hit?, if_pos hcache]
  exact hkept _ _ (hstored hcache)

/-- **A repeated render is a hit and nothing else.**  No render alters or removes what is cached.
And once a renderer that uses the cache has made a page, it gives the same page for the same data
ever after, whatever has been rendered in between with the same cache, by this renderer or others,
with success or without.  It loads the page's component once and nothing else, and adds nothing to
the cache. -/
theorem repeated_render_is_hit (r : Renderer) (uri : String) (custom : Option Data) :
    (∀ mode run k found, run.cache.get? k = some found →
        (r.renderComponent uri custom mode run).2.cache.get? k = some found ∧
          (r.render uri custom run).2.cache.get? k = some found) ∧
      ∀ run html, r.config.renderCache = true → (r.render uri custom run).1 = .ok html →
        ∀ between : List (Renderer × Earlier),
          let later := shared between (r.render uri custom run).2
          (r.render uri custom later).1 = .ok html ∧
            (r.render uri custom later).2.loadedUris = later.loadedUris ++ [uri] ∧
            (r.render uri custom later).2.cache = later.cache := by
  refine ⟨fun mode run k found h => ⟨r.renderComponent_cached uri custom mode run h,
    r.renderComponent_cached uri custom .root { run with ancestry := [] } h⟩, ?_⟩
  intro run html hcache h between later
  simp only [render] at h ⊢
  rcases hfirst : (r.renderComponent uri custom .root { run with ancestry := [] }).1 with
    error | rendered <;> rw [hfirst] at h
  · cases h
  obtain rfl : rendered.markup = html := Except.ok.inj h
  have hagain := renderComponent_again hcache hfirst { later with ancestry := [] } rfl
    fun k found hfound => shared_keeps between hfound
  rw [hagain]
  refine ⟨rfl, ?_, rfl⟩
  simp [Run.loadedUris, Load.uri?]

/-- The hypotheses are satisfiable: between the two renders of a page its card is rendered with
other data, a second renderer over the same cache fails at the card for its depth, and a component
is asked for that there is not. -/
theorem repeated_render_is_hit_page :
    let registry : Registry := { components := [
      ("card", { settings := { data := [("label", .string "a")] }, template := "<p>\x7b\x7blabel\x7d\x7d</p>" }),
      ("page", { settings := { imports := [("x-card", "card")] },
                 template := "<x-card></x-card>" })] }
    let r : Renderer := ⟨registry.library, {}, {}⟩
    let between : List (Renderer × Earlier) := [
      (r, ⟨32, true, "card", some [("label", .string "b")], .root⟩),
      (r, ⟨0, true, "page", some [("new", .null)], .root⟩), (r, ⟨32, true, "none", none, .root⟩)]
    let later := shared between (r.render "page" none {}).2
    (r.render "page" none later).1.toOption = some "<p>a</p>" ∧
      (r.render "page" none later).2.loadedUris =
        ["page", "card", "card", "page", "none"] ++ ["page"] ∧
      (r.render "page" none later).2.cache.length = 3 := by
  intro registry r between later
  have hfirst : (r.render "page" none {}).1 = .ok "<p>a</p>" := by decide +kernel
  obtain ⟨hhtml, hloads, hcache⟩ :=
    (repeated_render_is_hit r "page" none).2 {} "<p>a</p>" rfl hfirst between
  have hlater : later.loadedUris = ["page", "card", "card", "page", "none"] ∧
      later.cache.length = 3 := by decide +kernel
  refine ⟨congrArg Except.toOption hhtml, ?_, ?_⟩
  · rw [hloads, ← hlater.1]
  · rw [hcache, hlater.2]

end Renderer
end HtmlCompose
