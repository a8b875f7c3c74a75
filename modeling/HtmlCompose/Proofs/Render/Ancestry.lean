/-
# What a render does to the components above it

The ancestry of a run is the stack of components being rendered.  A render puts its
component on the stack, and everything below happens on top of it: directives,
the renders of imports one after another, the checks on a cached result.  Whatever
comes out of it, a result or an error from any depth, the stack is then what it was
before (`renderComponent_ancestry`).

With the stack known at every call, the bound on the number of components that may
still be entered is the depth check itself, and a render is the plain recursion
`renderComponent_eq`, without any bound.

`ancestry_kept` is the invariant of the stack: at every point of a render it holds
pairwise distinct addresses, one more than the depth limit at most.  The points of a
render are `Passes`: where it begins and ends, where it has entered its component,
and the points of the renders that resolving asks for on the way.
-/
import HtmlCompose.Proofs.Render.Steps
import HtmlCompose.Render.Registry

namespace HtmlCompose

open Markup Resolve

variable {ρ : Type}

namespace Resolve.Dialogue

/-- The renders that a dialogue asks for, each with the state that it begins in. -/
inductive Asks (child : RenderChild ρ) : Dialogue → Progress ρ → String → Data → ρ → Prop where
  | now {uri data unchanged next p} : Asks child (ask uri data unchanged next) p uri data p.run
  | later {uri data unchanged next p rendered s uri' data' t} :
    child uri data p.run = (.ok rendered, s) →
    Asks child (next rendered) ({ p with run := s }.collect uri rendered) uri' data' t →
    Asks child (ask uri data unchanged next) p uri' data' t

/-- What the renders below keep holds wherever one of them begins. -/
theorem Asks.invariant {child : RenderChild ρ} (Inv : ρ → Prop)
    (hchild : ∀ uri data s, Inv s → Inv (child uri data s).2) {d : Dialogue} {p : Progress ρ}
    {uri : String} {data : Data} {s : ρ} (h : Asks child d p uri data s) (hp : Inv p.run) :
    Inv s := by
  induction h with
  | now => exact hp
  | @later uri data unchanged next p rendered s uri' data' t hr _ ih =>
    have hstep := hchild uri data p.run hp
    rw [hr] at hstep
    exact ih hstep

end Resolve.Dialogue

namespace Renderer

/-! ### The stack of components is kept -/

/-- An entered render leaves the stack as it was, if the renders below do. -/
theorem renderEntered_ancestry (r : Renderer) {child : RenderChild Run}
    (hchild : ∀ uri data s, (child uri data s).2.ancestry = s.ancestry) (uri : String)
    (custom : Option Data) (mode : RenderMode) (run : Run) :
    (r.renderEntered child uri custom mode run).2.ancestry = run.ancestry :=
  r.renderEntered_keeps (·.ancestry = run.ancestry)
    (fun key rendered s hs => (r.kept_ancestry key rendered s).trans hs)
    (fun uri data s hs => (hchild uri data s).trans hs) uri custom mode run rfl

/-- Whatever comes out of a render, the stack is what it was. -/
theorem renderWithin_ancestry (r : Renderer) (n : Nat) (uri : String) (custom : Option Data)
    (mode : RenderMode) (run : Run) :
    (r.renderWithin n uri custom mode run).2.ancestry = run.ancestry := by
  induction n generalizing uri custom mode run with
  | zero =>
    unfold renderWithin
    split <;> rfl
  | succ n ih =>
    unfold renderWithin
    split
    · rfl
    · have hentered := r.renderEntered_ancestry
        (fun uri data s => ih uri (some data) .descendant s) uri custom mode
        { run with ancestry := run.ancestry ++ [uri] }
      simp only [hentered, List.dropLast_concat]

/-- **A render leaves the stack of components as it was.** -/
theorem renderComponent_ancestry (r : Renderer) (uri : String) (custom : Option Data)
    (mode : RenderMode) (run : Run) :
    (r.renderComponent uri custom mode run).2.ancestry = run.ancestry :=
  r.renderWithin_ancestry _ uri custom mode run

/-! ### The recursion -/

/-- How the imports below a component are rendered. -/
def descend (r : Renderer) : RenderChild Run := fun uri data =>
  r.renderComponent uri (some data) .descendant

/-- The run inside a component. -/
def entered (run : Run) (uri : String) : Run := { run with ancestry := run.ancestry ++ [uri] }

/-- A fresh render depends on the renders below at its own stack only. -/
theorem renderFresh_congr (r : Renderer) {child₁ child₂ : RenderChild Run} {stack : List String}
    (hchild : ∀ uri data s, s.ancestry = stack → child₁ uri data s = child₂ uri data s)
    (hkeep : ∀ uri data s, (child₁ uri data s).2.ancestry = s.ancestry) (uri : String)
    (component : Component) (data : Data) (mode : RenderMode) (run : Run)
    (hrun : run.ancestry = stack) :
    r.renderFresh child₁ uri component data mode run =
      r.renderFresh child₂ uri component data mode run := by
  simp only [renderFresh_eq]
  rcases questions uri component data with error | d
  · rfl
  · have hd := d.run_congr (·.ancestry = stack) (fun _ => True) (fun _ _ _ _ => trivial)
      (fun uri data s hs _ => hchild uri data s hs)
      (fun uri data s hs => (hkeep uri data s).trans hs) ⟨run, [], []⟩ hrun trivial
    simp only [hd]

/-- An entered render depends on the renders below at its own stack only. -/
theorem renderEntered_congr (r : Renderer) {child₁ child₂ : RenderChild Run} {stack : List String}
    (hchild : ∀ uri data s, s.ancestry = stack → child₁ uri data s = child₂ uri data s)
    (hkeep : ∀ uri data s, (child₁ uri data s).2.ancestry = s.ancestry) (uri : String)
    (custom : Option Data) (mode : RenderMode) (run : Run) (hrun : run.ancestry = stack) :
    r.renderEntered child₁ uri custom mode run = r.renderEntered child₂ uri custom mode run := by
  have hfresh := fun component => r.renderFresh_congr hchild hkeep uri component
    (Context.merge component.settings custom) mode (noted run custom mode) hrun
  simp only [renderEntered_eq, hfresh]

/-- **A render is a plain recursion**: first the two checks, then the component with the
components below it rendered in the same way. -/
theorem renderComponent_eq (r : Renderer) (uri : String) (custom : Option Data)
    (mode : RenderMode) (run : Run) :
    r.renderComponent uri custom mode run =
      if uri ∈ run.ancestry then (.error (.cyclicImport (run.ancestry ++ [uri])), run)
      else if r.config.maxDepth < run.ancestry.length then
        (.error (.depthExceeded uri r.config.maxDepth), run)
      else
        ((r.renderEntered r.descend uri custom mode (entered run uri)).1,
          { (r.renderEntered r.descend uri custom mode (entered run uri)).2 with
            ancestry := run.ancestry }) := by
  unfold renderComponent
  by_cases hcycle : uri ∈ run.ancestry
  · rcases r.config.maxDepth + 1 - run.ancestry.length with _ | n <;>
      simp [renderWithin, hcycle]
  by_cases hdepth : r.config.maxDepth < run.ancestry.length
  · have hleft : r.config.maxDepth + 1 - run.ancestry.length = 0 := by omega
    simp [renderWithin, hcycle, hdepth, hleft]
  obtain ⟨n, hn⟩ : ∃ n, r.config.maxDepth + 1 - run.ancestry.length = n + 1 :=
    ⟨r.config.maxDepth - run.ancestry.length, by omega⟩
  have hchild : ∀ uri' data s, s.ancestry = run.ancestry ++ [uri] →
      r.renderWithin n uri' (some data) .descendant s = r.descend uri' data s := by
    intro uri' data s hs
    have hleft : r.config.maxDepth + 1 - s.ancestry.length = n := by
      rw [hs, List.length_append, List.length_singleton]
      omega
    rw [descend, renderComponent, hleft]
  have hentered := r.renderEntered_congr hchild
    (fun uri' data s => r.renderWithin_ancestry n uri' (some data) .descendant s) uri custom mode
    (entered run uri) rfl
  have hback : (r.renderEntered r.descend uri custom mode (entered run uri)).2.ancestry =
      run.ancestry ++ [uri] := r.renderEntered_ancestry
    (fun uri' data s => r.renderComponent_ancestry uri' (some data) .descendant s) uri custom mode _
  rw [hn, renderWithin, if_neg (by simpa using hcycle), if_neg hcycle, if_neg hdepth, ← entered]
  simp only [hentered, hback, List.dropLast_concat]

/-! ### The stack at every point -/

/-- A render that has entered its component, and has to make its result anew, asks for a render
below it in a state. -/
def AsksBelow (r : Renderer) (uri : String) (custom : Option Data) (mode : RenderMode) (run : Run)
    (child : String) (data : Data) (s : Run) : Prop :=
  ∃ component d, r.library uri = .ok component ∧
    r.hit? uri component custom mode run.cache = none ∧
    questions uri component (Context.merge component.settings custom) = .ok d ∧
    d.Asks r.descend ⟨noted run custom mode, [], []⟩ child data s

/-- The stack is as given at some point of a render. -/
inductive Passes (r : Renderer) :
    String → Option Data → RenderMode → Run → List String → Prop where
  /-- where the render begins -/
  | start {uri custom mode run} : Passes r uri custom mode run run.ancestry
  /-- where it has entered its component -/
  | enter {uri custom mode run} : uri ∉ run.ancestry →
    run.ancestry.length ≤ r.config.maxDepth →
    Passes r uri custom mode run (entered run uri).ancestry
  /-- where a render below it passes -/
  | descend {uri custom mode run child data s stack} : uri ∉ run.ancestry →
    run.ancestry.length ≤ r.config.maxDepth →
    r.AsksBelow uri custom mode (entered run uri) child data s →
    Passes r child (some data) .descendant s stack →
    Passes r uri custom mode run stack
  /-- where it ends -/
  | finish {uri custom mode run} :
    Passes r uri custom mode run (r.renderComponent uri custom mode run).2.ancestry

/-- Pairwise distinct addresses, one more than the depth limit at most. -/
structure Proper (r : Renderer) (stack : List String) : Prop where
  nodup : stack.Nodup
  length : stack.length ≤ r.config.maxDepth + 1

/-- A component that may be entered leaves the stack proper. -/
theorem Proper.entered {r : Renderer} {run : Run} {uri : String} (h : r.Proper run.ancestry)
    (hnew : uri ∉ run.ancestry) (hdepth : run.ancestry.length ≤ r.config.maxDepth) :
    r.Proper (entered run uri).ancestry := by
  refine ⟨?_, ?_⟩
  · rw [Renderer.entered, List.nodup_append]
    refine ⟨h.nodup, List.nodup_cons.2 ⟨List.not_mem_nil, List.nodup_nil⟩, fun a ha b hb hab => ?_⟩
    exact hnew (List.mem_singleton.1 hb ▸ hab ▸ ha)
  · rw [Renderer.entered, List.length_append, List.length_singleton]
    omega

/-- A render that starts from a proper stack passes proper ones only. -/
theorem Passes.proper {r : Renderer} {uri : String} {custom : Option Data} {mode : RenderMode}
    {run : Run} {stack : List String} (h : r.Passes uri custom mode run stack)
    (hrun : r.Proper run.ancestry) : r.Proper stack := by
  induction h with
  | start => exact hrun
  | enter hnew hdepth => exact hrun.entered hnew hdepth
  | @descend uri custom mode run child data s stack hnew hdepth hasks _ ih =>
    obtain ⟨component, d, -, -, -, hd⟩ := hasks
    have hs : s.ancestry = (entered run uri).ancestry :=
      hd.invariant (·.ancestry = (entered run uri).ancestry)
        (fun uri data t ht => (r.renderComponent_ancestry uri (some data) .descendant t).trans ht)
        rfl
    exact ih (hs ▸ hrun.entered hnew hdepth)
  | @finish uri custom mode run =>
    exact (r.renderComponent_ancestry uri custom mode run).symm ▸ hrun

/-- **The stack of components is kept.**  Every render, and every one that it asks for below,
leaves the stack as it was, whatever comes out; and from a stack of distinct addresses, one more
than the depth limit at most, no render ever passes a point where it is not of this kind. -/
theorem ancestry_kept (r : Renderer) (uri : String) (custom : Option Data) (mode : RenderMode)
    (run : Run) :
    (r.renderComponent uri custom mode run).2.ancestry = run.ancestry ∧
      (r.Proper run.ancestry → ∀ stack, r.Passes uri custom mode run stack →
        stack.Nodup ∧ stack.length ≤ r.config.maxDepth + 1) :=
  ⟨r.renderComponent_ancestry uri custom mode run, fun hrun _ hstack =>
    ⟨(hstack.proper hrun).nodup, (hstack.proper hrun).length⟩⟩

/-- The hypotheses are satisfiable: a page enters its card under a limit of one import. -/
theorem ancestry_kept_page :
    let page : Component := { settings := { imports := [("x-card", "card")] },
                              template := "<x-card></x-card>" }
    let registry : Registry := { components := [("card", { template := "" }), ("page", page)] }
    let r : Renderer := ⟨registry.library, { maxDepth := 1 }, {}⟩
    (r.renderComponent "page" none .root {}).2.ancestry = [] ∧
      ["page", "card"].Nodup ∧ ["page", "card"].length ≤ 2 := by
  intro page registry r
  have hkept := ancestry_kept r "page" none .root {}
  have hasks : (match questions "page" page (Context.merge page.settings none) with
      | .ok (.ask uri data _ _) => uri == "card" && data.isEmpty
      | _ => false) = true := by decide +kernel
  split at hasks
  · next uri data unchanged next hd =>
    obtain ⟨rfl, -⟩ := Bool.and_eq_true_iff.1 hasks |>.imp_left eq_of_beq
    refine ⟨hkept.1, hkept.2 ⟨List.nodup_nil, Nat.zero_le _⟩ ["page", "card"] ?_⟩
    refine .descend List.not_mem_nil (Nat.zero_le _) ⟨page, _, rfl, rfl, hd, .now⟩ ?_
    exact .enter (by decide) (Nat.le_refl 1)
  · cases hasks

end Renderer
end HtmlCompose
