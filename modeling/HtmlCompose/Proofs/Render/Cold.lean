/-
# Renders without a cache

Without a cache a render depends on the components above it and on nothing else of
its run (`cold_eq`), and it depends on them in one way only: it may be refused, because
a component below is one of those above or is too far down.

So a cold render that has once succeeded tells what it gives below any other
components and under any other limit (`coldEntered_movable`).  Its import chains are the
renders below it in their order.  The first of them that may not stand where it would
stand now decides the error, and if all may stand the result is the same.  This is
what a cached result relies on.
-/
import HtmlCompose.Proofs.Render.Ancestry
import Mathlib.Tactic.SplitIfs

namespace HtmlCompose

open Markup Resolve

namespace Renderer

/-- The renderer with another depth limit, and with or without the cache. -/
def tuned (r : Renderer) (maxDepth : Nat) (renderCache : Bool) : Renderer :=
  { r with config := { r.config with maxDepth, renderCache } }

/-- What a render gives below some components when nothing is cached. -/
def cold (r : Renderer) (limit : Nat) (stack : List String) (uri : String)
    (custom : Option Data) (mode : RenderMode) : Except RenderError Rendered :=
  ((r.tuned limit false).renderComponent uri custom mode { ancestry := stack }).1

/-- What the imports below some components give when nothing is cached. -/
def answers (r : Renderer) (limit : Nat) (stack : List String) (uri : String) (data : Data) :
    Except RenderError Rendered :=
  r.cold limit stack uri (some data) .descendant

/-- What a component that has been entered gives with its data when nothing is cached. -/
def coldEntered (r : Renderer) (limit : Nat) (stack : List String) (uri : String)
    (component : Component) (data : Data) (mode : RenderMode) : Except RenderError Rendered :=
  match questions uri component data with
  | .error error => .error error
  | .ok d => r.conclude uri component data mode
      (d.run (Dialogue.answering (r.answers limit stack)) ⟨(), [], []⟩)

@[simp] theorem tuned_library (r : Renderer) (limit : Nat) (cached : Bool) :
    (r.tuned limit cached).library = r.library := rfl

@[simp] theorem tuned_maxDepth (r : Renderer) (limit : Nat) (cached : Bool) :
    (r.tuned limit cached).config.maxDepth = limit := rfl

@[simp] theorem tuned_conclude {ρ : Type} (r : Renderer) (limit : Nat) (cached : Bool)
    (uri : String) (component : Component) (data : Data) (mode : RenderMode)
    (resolved : Resolved ρ) :
    (r.tuned limit cached).conclude uri component data mode resolved =
      r.conclude uri component data mode resolved := rfl

/-! ### The recursion without a cache -/

/-- What holds below some components if it holds one component further down, as long as the limit
allows one, holds below any components. -/
theorem below_induction (limit : Nat) {P : List String → Prop}
    (step : ∀ stack, (stack.length ≤ limit → ∀ uri, P (stack ++ [uri])) → P stack)
    (stack : List String) : P stack := by
  refine step stack fun hlimit uri => ?_
  exact below_induction limit step (stack ++ [uri])
termination_by limit + 1 - stack.length
decreasing_by
  rw [List.length_append, List.length_singleton]
  omega

/-- An entered render without a cache loads the component and asks its questions. -/
theorem renderEntered_uncached (r : Renderer) (limit : Nat) (child : RenderChild Run)
    (uri : String) (custom : Option Data) (mode : RenderMode) (run : Run) :
    (r.tuned limit false).renderEntered child uri custom mode run =
      match r.library uri with
      | .error error => (.error (.load error), noted run custom mode)
      | .ok component =>
        match questions uri component (Context.merge component.settings custom) with
        | .error error => (.error error, noted run custom mode)
        | .ok d => (r.conclude uri component (Context.merge component.settings custom) mode
            (d.run child ⟨noted run custom mode, [], []⟩),
            (d.run child ⟨noted run custom mode, [], []⟩).after.run) := by
  have hhit : ∀ component, (r.tuned limit false).hit? uri component custom mode run.cache = none :=
    fun component => rfl
  have hkept : ∀ key rendered after,
      (r.tuned limit false).kept key rendered after = (.ok rendered, after) :=
    fun key rendered after => rfl
  simp only [renderEntered_eq, hhit, hkept, renderFresh_eq, tuned_library, tuned_conclude]
  rcases r.library uri with error | component
  · rfl
  simp only
  rcases questions uri component _ with error | d
  · rfl
  · simp only
    rcases r.conclude uri component _ mode _ <;> rfl

/-- Without a cache the stack is all that counts of a run. -/
theorem uncached_congr (r : Renderer) (limit : Nat) (uri : String) (custom : Option Data)
    (mode : RenderMode) {run run' : Run} (h : run.ancestry = run'.ancestry) :
    ((r.tuned limit false).renderComponent uri custom mode run).1 =
      ((r.tuned limit false).renderComponent uri custom mode run').1 := by
  obtain ⟨stack, hstack⟩ : ∃ stack, run.ancestry = stack := ⟨_, rfl⟩
  induction stack using below_induction limit generalizing uri custom mode run run' with
  | step stack ih =>
    rw [renderComponent_eq, renderComponent_eq, ← h, hstack, tuned_maxDepth]
    split_ifs with hcycle hdepth
    · rfl
    · rfl
    simp only [renderEntered_uncached]
    rcases r.library uri with error | component
    · rfl
    simp only
    rcases questions uri component _ with error | d
    · rfl
    refine r.conclude_eq_of_alike uri component _ mode (d.run_alike
      (fun a b : Run => a.ancestry = stack ++ [uri] ∧ b.ancestry = stack ++ [uri]) (fun _ => True)
      (fun _ _ _ _ => trivial) ?_ _ _ rfl rfl ?_ trivial)
    · rintro uri' data a b ⟨ha, hb⟩ -
      refine ⟨ih (Nat.le_of_not_lt hdepth) uri uri' (some data) .descendant (ha.trans hb.symm) ha,
        ?_, ?_⟩
      · exact (renderComponent_ancestry _ uri' (some data) .descendant a).trans ha
      · exact (renderComponent_ancestry _ uri' (some data) .descendant b).trans hb
    · simp [entered, hstack, ← h]

/-- **A cold render is refused, or it loads its component and enters it.** -/
theorem cold_eq (r : Renderer) (limit : Nat) (stack : List String) (uri : String)
    (custom : Option Data) (mode : RenderMode) :
    r.cold limit stack uri custom mode =
      if uri ∈ stack then .error (.cyclicImport (stack ++ [uri]))
      else if limit < stack.length then .error (.depthExceeded uri limit)
      else
        match r.library uri with
        | .error error => .error (.load error)
        | .ok component => r.coldEntered limit (stack ++ [uri]) uri component
            (Context.merge component.settings custom) mode := by
  rw [cold, renderComponent_eq, tuned_maxDepth]
  split_ifs with hcycle hdepth
  · rfl
  · rfl
  simp only [renderEntered_uncached]
  rcases r.library uri with error | component
  · rfl
  simp only [coldEntered]
  rcases questions uri component _ with error | d
  · rfl
  refine r.conclude_eq_of_alike uri component _ mode (d.run_alike
    (fun (a : Run) (_ : Unit) => a.ancestry = stack ++ [uri]) (fun _ => True)
    (fun _ _ _ _ => trivial) ?_ _ _ rfl rfl rfl trivial)
  rintro uri' data a - ha -
  exact ⟨r.uncached_congr limit uri' (some data) .descendant ha,
    (renderComponent_ancestry _ uri' (some data) .descendant a).trans ha⟩

/-! ### Moving a finished render -/

/-- Why the last component of a chain may not stand below some components, if it may not. -/
def refuse (limit : Nat) (stack : List String) (path : List String) : Option RenderError :=
  path.getLast?.bind fun target =>
    if stack.contains target then some (.cyclicImport (stack ++ path))
    else if limit < stack.length + path.length - 1 then some (.depthExceeded target limit)
    else none

/-- Chains are refused for the first of them that may not stand there. -/
theorem refusal?_eq (r : Renderer) (stack : List String) (paths : List (List String)) :
    r.refusal? stack paths = paths.findSome? (refuse r.config.maxDepth stack) := rfl

/-- The first result depends on the results of the items only. -/
theorem findSome?_congr {α β : Type} {l : List α} {f g : α → Option β}
    (h : ∀ a ∈ l, f a = g a) : l.findSome? f = l.findSome? g := by
  induction l with
  | nil => rfl
  | cons a l ih =>
    rw [List.findSome?_cons, List.findSome?_cons, h a List.mem_cons_self,
      ih fun b hb => h b (List.mem_cons_of_mem a hb)]

/-- What a finished render gives below other components: its chains are checked there. -/
def moved (limit : Nat) (stack : List String) (rendered : Rendered) :
    Except RenderError Rendered :=
  (rendered.importPaths.findSome? (refuse limit stack)).elim (.ok rendered) .error

/-- A moved render is unchanged, and all its chains may stand in the new place. -/
theorem moved_eq_ok_iff {limit : Nat} {stack : List String} {rendered rendered' : Rendered} :
    moved limit stack rendered = .ok rendered' ↔
      rendered = rendered' ∧ ∀ path ∈ rendered.importPaths, refuse limit stack path = none := by
  rw [← List.findSome?_eq_none_iff, moved]
  cases rendered.importPaths.findSome? (refuse limit stack) <;> simp

/-- A component alone is refused if it is above already, or too far down. -/
theorem refuse_singleton (limit : Nat) (stack : List String) (uri : String) :
    refuse limit stack [uri] =
      if uri ∈ stack then some (.cyclicImport (stack ++ [uri]))
      else if limit < stack.length then some (.depthExceeded uri limit) else none := by
  simp [refuse]

/-- A chain that goes through a component may stand below some components if the rest of it may
stand below these and the component. -/
theorem refuse_cons {limit : Nat} {stack path : List String} {uri : String}
    (hnew : uri ∉ path.getLast?) (huri : refuse limit stack [uri] = none) :
    refuse limit stack (uri :: path) = refuse limit (stack ++ [uri]) path := by
  cases path with
  | nil => exact huri
  | cons child path =>
    obtain ⟨target, htarget⟩ : ∃ target, (child :: path).getLast? = some target :=
      ⟨_, List.getLast?_eq_some_getLast (List.cons_ne_nil child path)⟩
    have hne : target ≠ uri := fun h => hnew (h ▸ htarget)
    have hlength : stack.length + (uri :: child :: path).length - 1 =
        (stack ++ [uri]).length + (child :: path).length - 1 := by
      simp only [List.length_append, List.length_cons, List.length_nil]
      omega
    rw [refuse, refuse, List.getLast?_cons_cons, htarget, hlength]
    simp [hne]

/-- Finishing a root leaves its chains. -/
theorem finishRoot_importPaths {r : Renderer} {uri : String} {component : Component} {data : Data}
    {nodes : Forest} {head : Head.Assets} {paths : List (List String)} {rendered : Rendered}
    (h : r.finishRoot uri component data nodes head paths = .ok rendered) :
    rendered.importPaths = paths := by
  simp only [finishRoot] at h
  split at h
  · cases h
  · cases h
    rfl

/-- A render that succeeds has resolved everything, and has the chains of that. -/
theorem conclude_eq_ok {ρ : Type} {r : Renderer} {uri : String} {component : Component}
    {data : Data} {mode : RenderMode} {resolved : Resolved ρ} {rendered : Rendered}
    (h : r.conclude uri component data mode resolved = .ok rendered) :
    resolved.failure = none ∧ rendered.importPaths = resolved.after.paths := by
  unfold conclude at h
  rcases hf : resolved.failure with _ | error <;> rw [hf] at h
  · cases mode with
    | root => exact ⟨rfl, finishRoot_importPaths h⟩
    | descendant =>
      cases h
      exact ⟨rfl, rfl⟩
  · cases h

/-- A render whose imports fail has their error. -/
theorem conclude_eq_error {ρ : Type} {r : Renderer} {uri : String} {component : Component}
    {data : Data} {mode : RenderMode} {resolved : Resolved ρ} {error : RenderError}
    (h : resolved.failure = some error) :
    r.conclude uri component data mode resolved = .error error := by
  unfold conclude
  rw [h]

/-- **A finished cold render may be moved.**  Below other components and under another limit the
same component gives the same with the same data, unless one of its chains is refused there. -/
theorem coldEntered_movable (r : Renderer) {limit : Nat} {stack : List String} {uri : String}
    {component : Component} {data : Data} {mode : RenderMode} {rendered : Rendered}
    (h : r.coldEntered limit stack uri component data mode = .ok rendered) (limit' : Nat)
    (stack' : List String) :
    r.coldEntered limit' stack' uri component data mode = moved limit' stack' rendered := by
  induction stack using below_induction limit
    generalizing uri component data mode rendered limit' stack' with
  | step stack ih =>
    unfold coldEntered at h ⊢
    rcases hd : questions uri component data with error | d <;> rw [hd] at h
    · simp at h
    simp only at h ⊢
    obtain ⟨hend, hpaths⟩ := conclude_eq_ok h
    have hagain : ∀ child data finished, r.answers limit stack child data = .ok finished →
        r.answers limit' stack' child data =
          (([child] :: finished.importPaths.map (child :: ·)).findSome?
            (refuse limit' stack')).elim (.ok finished) .error := by
      intro child data finished hfinished
      rw [answers, cold_eq] at hfinished
      split_ifs at hfinished with hcycle hdepth
      rcases hload : r.library child with error | imported <;> rw [hload] at hfinished
      · cases hfinished
      have hbelow := ih (Nat.le_of_not_lt hdepth) child hfinished
      -- where it was finished, the component is not among those that it reaches
      have hnew : ∀ path ∈ finished.importPaths, child ∉ path.getLast? := by
        intro path hpath hlast
        have hnone := (moved_eq_ok_iff.1 ((hbelow limit _).symm.trans hfinished)).2 path hpath
        rw [refuse, hlast] at hnone
        simp at hnone
      rw [answers, cold_eq, List.findSome?_cons, refuse_singleton]
      split_ifs with hcycle' hdepth'
      · rfl
      · rfl
      have hchild : refuse limit' stack' [child] = none := by
        rw [refuse_singleton, if_neg hcycle', if_neg hdepth']
      rw [hload, List.findSome?_map]
      refine (hbelow limit' _).trans ?_
      rw [moved]
      rw [findSome?_congr fun path hpath => (refuse_cons (hnew path hpath) hchild).symm]
      rfl
    obtain ⟨chains, hchains, hreplay⟩ := Dialogue.run_replay hagain d ⟨(), [], []⟩ hend
    rw [moved, hpaths, hchains, List.nil_append]
    rcases hc : chains.findSome? (refuse limit' stack') with _ | error <;> rw [hc] at hreplay
    · simp only at hreplay
      rw [hreplay]
      exact h
    · exact conclude_eq_error hreplay

end Renderer
end HtmlCompose
