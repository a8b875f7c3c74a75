/-
# One render in its steps

A render that has entered its component notes the load, looks into the cache, and asks
the questions of the evaluated template if it finds nothing; what the answers come to is
concluded and kept.  The definitions here name these steps, and `renderEntered_eq` puts
a render together from them, so that nothing below has to look into a render again.

Four things happen to the run on the way: a component is put on the stack or taken off,
a load is noted, a result that a load has led to is kept, and renders below do the same.
Whatever outlasts the first three outlasts every render (`renderComponent_keeps_finished`).
-/
import HtmlCompose.Proofs.Resolve.Dialogue
import HtmlCompose.Render.Renderer

namespace HtmlCompose

open Markup Resolve

variable {ρ σ : Type}

namespace Renderer

/-! ### The steps -/

/-- What resolving a component's evaluated template will ask for. -/
def questions (uri : String) (component : Component) (data : Data) :
    Except RenderError Dialogue :=
  match Document.parse component.template with
  | .error fault => .error (.markup uri fault)
  | .ok template =>
    .ok (.ofForest uri component.settings.imports
      (template.evaluate component.settings.imports data).forest)

/-- What a render gives once its imports are resolved. -/
def conclude (r : Renderer) (uri : String) (component : Component) (data : Data)
    (mode : RenderMode) (resolved : Resolved ρ) : Except RenderError Rendered :=
  match resolved.failure with
  | some error => .error error
  | none =>
    match mode with
    | .root => r.finishRoot uri component data resolved.nodes resolved.after.head
        resolved.after.paths
    | .descendant => .ok (r.finishDescendant uri component data resolved.nodes
        resolved.after.head resolved.after.paths)

/-- What a finished render is stored under. -/
def key (uri : String) (component : Component) (custom : Option Data) (mode : RenderMode) :
    String × Fingerprint :=
  (uri, Fingerprint.of (Context.merge component.settings custom) component.template
    component.script mode)

/-- The cached result that a render finds, if the cache may be used and has one. -/
def hit? (r : Renderer) (uri : String) (component : Component) (custom : Option Data)
    (mode : RenderMode) (cache : RenderCache) : Option Rendered :=
  if r.config.renderCache then cache.get? (key uri component custom mode) else none

/-- The run once a load has been noted. -/
def noted (run : Run) (custom : Option Data) (mode : RenderMode) : Run :=
  { run with loads := ⟨run.ancestry, custom, mode⟩ :: run.loads }

/-- What comes out of a finished render, and the run with it in the cache. -/
def kept (r : Renderer) (key : String × Fingerprint) (rendered : Rendered) (run : Run) :
    Except RenderError Rendered × Run :=
  if r.config.renderCache then
    (.ok (((run.cache.store key rendered).get? key).getD rendered),
      { run with cache := run.cache.store key rendered })
  else (.ok rendered, run)

/-- What is concluded depends on what was resolved, and not on the run behind it. -/
theorem conclude_eq_of_alike (r : Renderer) (uri : String) (component : Component) (data : Data)
    (mode : RenderMode) {R : ρ → σ → Prop} {a : Resolved ρ} {b : Resolved σ}
    (h : Dialogue.Alike R a b) :
    r.conclude uri component data mode a = r.conclude uri component data mode b := by
  obtain ⟨hnodes, hfailure, hhead, hpaths, -⟩ := h
  simp only [conclude, hnodes, hfailure, hhead, hpaths]

/-- Rendering without a look into the cache carries on the questions of the template. -/
theorem renderFresh_eq (r : Renderer) (child : RenderChild Run) (uri : String)
    (component : Component) (data : Data) (mode : RenderMode) (run : Run) :
    r.renderFresh child uri component data mode run =
      match questions uri component data with
      | .error error => (.error error, run)
      | .ok d => (r.conclude uri component data mode (d.run child ⟨run, [], []⟩),
          (d.run child ⟨run, [], []⟩).after.run) := by
  unfold renderFresh questions
  rcases Document.parse component.template with fault | template
  · rfl
  · simp only [Dialogue.resolveForest_eq_run]
    unfold conclude
    rcases ((Dialogue.ofForest _ _ _).run child _) with ⟨nodes, _ | error, after⟩
    · cases mode <;> rfl
    · rfl

/-- An entered render is a load, a look into the cache, and a fresh render if need be. -/
theorem renderEntered_eq (r : Renderer) (child : RenderChild Run) (uri : String)
    (custom : Option Data) (mode : RenderMode) (run : Run) :
    r.renderEntered child uri custom mode run =
      match r.library uri with
      | .error error => (.error (.load error), noted run custom mode)
      | .ok component =>
        match r.hit? uri component custom mode run.cache with
        | some hit => ((r.refusal? run.ancestry hit.importPaths).elim (.ok hit) .error,
            noted run custom mode)
        | none =>
          match r.renderFresh child uri component (Context.merge component.settings custom) mode
              (noted run custom mode) with
          | (.error error, after) => (.error error, after)
          | (.ok rendered, after) => r.kept (key uri component custom mode) rendered after := by
  unfold renderEntered
  rcases r.library uri with error | component
  · rfl
  simp only [hit?, key]
  rcases hhit : (if r.config.renderCache = true then _ else none : Option Rendered) with _ | hit
  · rcases hr : r.renderFresh child uri component _ mode (noted run custom mode) with
      ⟨error | rendered, after⟩ <;> rw [noted] at hr <;> simp only [hr, kept]
  · simp only [noted]
    rcases r.refusal? run.ancestry hit.importPaths with _ | error <;> rfl

@[simp] theorem noted_ancestry (run : Run) (custom : Option Data) (mode : RenderMode) :
    (noted run custom mode).ancestry = run.ancestry := rfl

@[simp] theorem kept_ancestry (r : Renderer) (key : String × Fingerprint) (rendered : Rendered)
    (run : Run) : (r.kept key rendered run).2.ancestry = run.ancestry := by
  unfold kept
  split <;> rfl

@[simp] theorem kept_loads (r : Renderer) (key : String × Fingerprint) (rendered : Rendered)
    (run : Run) : (r.kept key rendered run).2.loads = run.loads := by
  unfold kept
  split <;> rfl

/-! ### Looking into the cache -/

/-- What is found in the cache stands there under the key of the load. -/
theorem get?_of_hit? {r : Renderer} {uri : String} {component : Component} {custom : Option Data}
    {mode : RenderMode} {cache : RenderCache} {hit : Rendered}
    (h : r.hit? uri component custom mode cache = some hit) :
    cache.get? (key uri component custom mode) = some hit := by
  unfold hit? at h
  split at h
  · exact h
  · cases h

/-- A result that is kept comes out, unless there is another one already. -/
theorem kept_fst {r : Renderer} {key : String × Fingerprint} {rendered : Rendered} {run : Run}
    (h : ∀ old, run.cache.get? key = some old → old = rendered) :
    (r.kept key rendered run).1 = .ok rendered := by
  unfold kept
  split
  · simp only [Cache.get?_store, beq_self_eq_true, if_true]
    rcases hold : run.cache.get? key with _ | old
    · rfl
    · rw [h old hold]
      rfl
  · rfl

/-- What is cached once a result is kept was cached before, or is the result. -/
theorem cached_of_kept {r : Renderer} {key k : String × Fingerprint} {rendered found : Rendered}
    {run : Run} (h : (r.kept key rendered run).2.cache.get? k = some found) :
    run.cache.get? k = some found ∨ k = key ∧ found = rendered := by
  unfold kept at h
  split at h
  · rw [Cache.get?_store] at h
    rcases hold : run.cache.get? k with _ | old <;> rw [hold] at h
    · rw [Option.none_or] at h
      split at h
      · next hk => exact .inr ⟨eq_of_beq hk, (Option.some.inj h).symm⟩
      · cases h
    · exact .inl h
  · exact .inl h

/-! ### What a render keeps of the run -/

/-- What the renders below keep of the run, a fresh render keeps. -/
theorem renderFresh_keeps (r : Renderer) {child : RenderChild Run} (I : Run → Prop)
    (hchild : ∀ uri data s, I s → I (child uri data s).2) (uri : String)
    (component : Component) (data : Data) (mode : RenderMode) (run : Run) (h : I run) :
    I (r.renderFresh child uri component data mode run).2 := by
  rw [renderFresh_eq]
  rcases questions uri component data with error | d
  · exact h
  · exact d.run_invariant I hchild ⟨run, [], []⟩ h

/-- What the renders below and keeping a result keep of the run, an entered render keeps. -/
theorem renderEntered_keeps (r : Renderer) {child : RenderChild Run} (I : Run → Prop)
    (hkept : ∀ key rendered s, I s → I (r.kept key rendered s).2)
    (hchild : ∀ uri data s, I s → I (child uri data s).2) (uri : String)
    (custom : Option Data) (mode : RenderMode) (run : Run) (h : I (noted run custom mode)) :
    I (r.renderEntered child uri custom mode run).2 := by
  rw [renderEntered_eq]
  rcases r.library uri with error | component
  · exact h
  simp only
  rcases r.hit? uri component custom mode run.cache with _ | hit
  · have hfresh := r.renderFresh_keeps I hchild uri component
      (Context.merge component.settings custom) mode _ h
    simp only
    rcases hr : r.renderFresh child uri component _ mode _ with ⟨error | rendered, after⟩ <;>
      rw [hr] at hfresh
    · exact hfresh
    · exact hkept _ rendered after hfresh
  · exact h

/-- A load of a component has led to a fresh result. -/
structure Finishes (r : Renderer) (uri : String) (component : Component) (load : Load)
    (rendered : Rendered) (after : Run) : Prop where
  loaded : r.library uri = .ok component
  noted : load ∈ after.loads
  address : load.uri? = some uri
  result : ∃ child run, r.renderFresh child uri component
    (Context.merge component.settings load.custom) load.mode run = (.ok rendered, after)

variable {r : Renderer} {I : Run → Prop}

/-- What outlasts keeping the results of loads outlasts an entered render, and no load is
forgotten. -/
theorem renderEntered_keeps_finished {child : RenderChild Run}
    (hkept : ∀ uri component load rendered after, r.Finishes uri component load rendered after →
      I after → I (r.kept (key uri component load.custom load.mode) rendered after).2)
    (hchild : ∀ uri data s, I s → I (child uri data s).2 ∧ s.loads ⊆ (child uri data s).2.loads)
    {uri : String} (custom : Option Data) (mode : RenderMode) (run : Run)
    (huri : run.ancestry.getLast? = some uri) (h : I (noted run custom mode)) :
    I (r.renderEntered child uri custom mode run).2 ∧
      run.loads ⊆ (r.renderEntered child uri custom mode run).2.loads := by
  let load : Load := ⟨run.ancestry, custom, mode⟩
  have hload : load ∈ (noted run custom mode).loads := List.mem_cons_self
  have hnoted : run.loads ⊆ (noted run custom mode).loads := List.subset_cons_self _ _
  rw [renderEntered_eq]
  rcases hlibrary : r.library uri with error | component
  · exact ⟨h, hnoted⟩
  simp only
  rcases r.hit? uri component custom mode run.cache with _ | hit
  · obtain ⟨hI, hloads⟩ := r.renderFresh_keeps
      (fun s => I s ∧ (noted run custom mode).loads ⊆ s.loads)
      (fun uri data s hs => (hchild uri data s hs.1).imp_right (List.Subset.trans hs.2))
      uri component (Context.merge component.settings custom) mode (noted run custom mode)
      ⟨h, List.Subset.refl _⟩
    simp only
    rcases hr : r.renderFresh child uri component _ mode (noted run custom mode) with
      ⟨error | rendered, after⟩ <;> rw [hr] at hI hloads
    · exact ⟨hI, List.Subset.trans hnoted hloads⟩
    · have hfinishes : r.Finishes uri component load rendered after :=
        ⟨hlibrary, hloads hload, huri, child, noted run custom mode, hr⟩
      refine ⟨hkept uri component load rendered after hfinishes hI, ?_⟩
      rw [kept_loads]
      exact List.Subset.trans hnoted hloads
  · exact ⟨h, hnoted⟩

/-- **What outlasts noting a load, keeping the result of a load and changing the stack outlasts a
render.** -/
theorem renderComponent_keeps_finished
    (hstack : ∀ s ancestry, I s → I { s with ancestry })
    (hnoted : ∀ s custom mode, I s → I (noted s custom mode))
    (hkept : ∀ uri component load rendered after, r.Finishes uri component load rendered after →
      I after → I (r.kept (key uri component load.custom load.mode) rendered after).2)
    (uri : String) (custom : Option Data) (mode : RenderMode) {run : Run} (h : I run) :
    I (r.renderComponent uri custom mode run).2 := by
  have hwithin : ∀ n uri custom mode run, I run → I (r.renderWithin n uri custom mode run).2 ∧
      run.loads ⊆ (r.renderWithin n uri custom mode run).2.loads := by
    intro n
    induction n with
    | zero =>
      intro uri custom mode run h
      unfold renderWithin
      split <;> exact ⟨h, List.Subset.refl _⟩
    | succ n ih =>
      intro uri custom mode run h
      unfold renderWithin
      split
      · exact ⟨h, List.Subset.refl _⟩
      · obtain ⟨hI, hloads⟩ := renderEntered_keeps_finished hkept
          (fun uri data s hs => ih uri (some data) .descendant s hs) custom mode
          { run with ancestry := run.ancestry ++ [uri] } List.getLast?_concat
          (hnoted _ _ _ (hstack _ _ h))
        exact ⟨hstack _ _ hI, hloads⟩
  exact (hwithin _ uri custom mode run h).1

/-- What outlasts noting a load, keeping a result and changing the stack outlasts a render. -/
theorem renderComponent_keeps (r : Renderer) (I : Run → Prop)
    (hstack : ∀ s ancestry, I s → I { s with ancestry })
    (hnoted : ∀ s custom mode, I s → I (noted s custom mode))
    (hkept : ∀ key rendered s, I s → I (r.kept key rendered s).2) (uri : String)
    (custom : Option Data) (mode : RenderMode) (run : Run) (h : I run) :
    I (r.renderComponent uri custom mode run).2 :=
  renderComponent_keeps_finished hstack hnoted
    (fun _ _ _ rendered after _ hafter => hkept _ rendered after hafter) uri custom mode h

end Renderer
end HtmlCompose
