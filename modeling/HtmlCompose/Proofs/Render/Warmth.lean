/-
# A warm cache changes no result

A render may use what earlier renders have left in the cache, even renders under
another depth limit, of another root, or ones that have failed in the end.  It gives
what it gives without any of this (`warm_eq_cold`).

The invariant is that every cached result is *backed* by a load that has been made: the
load's component gives, from the data and in the mode of the load, the cached result
wherever its chains may stand, and the error of the first chain that may not stand
elsewhere (`Backed`).  A fresh result is backed because a finished cold render may be
moved (`coldEntered_movable`).  A hit is right because the streams of two loads of one
component tell their data and modes apart, and the fingerprints tell the streams apart.

The last point is about SHA-256 and cannot be proved.  What is assumed is as little as
there can be: of the streams that the loads of the runs have digested, no two different
ones have the same digest (`CollisionFree`).
-/
import HtmlCompose.Proofs.Digest.Stream
import HtmlCompose.Proofs.Render.Cold
import HtmlCompose.Render.Registry

namespace HtmlCompose

open Markup Resolve

/-! ### Loads and what they digest -/

/-- The bytes that the load of a component digests, if there is such a component. -/
def Load.stream? (library : Library) (l : Load) : Option (List UInt8) :=
  l.uri?.bind fun uri => (library uri).toOption.map fun component =>
    Fingerprint.stream (Context.merge component.settings l.custom) component.template
      component.script l.mode

/-- What some loads digest. -/
def Library.streams (library : Library) (loads : List Load) : List (List UInt8) :=
  loads.filterMap (·.stream? library)

/-- Different streams have different digests. -/
def CollisionFree (streams : List (List UInt8)) : Prop :=
  ∀ a ∈ streams, ∀ b ∈ streams, Sha256.digest a = Sha256.digest b → a = b

instance (streams : List (List UInt8)) : Decidable (CollisionFree streams) := by
  unfold CollisionFree
  infer_instance

/-- Among fewer streams there are no more collisions. -/
theorem CollisionFree.subset {streams streams' : List (List UInt8)}
    (h : CollisionFree streams') (hsub : streams ⊆ streams') : CollisionFree streams :=
  fun a ha b hb => h a (hsub ha) b (hsub hb)

/-- Fewer loads digest fewer streams. -/
theorem Library.streams_subset (library : Library) {loads loads' : List Load}
    (hsub : loads ⊆ loads') : library.streams loads ⊆ library.streams loads' :=
  List.filterMap_subset _ hsub

/-- A load of a component digests the stream of its data, template, script and mode. -/
theorem Load.stream?_eq {library : Library} {l : Load} {uri : String} {component : Component}
    (huri : l.uri? = some uri) (hcomponent : library uri = .ok component) :
    l.stream? library = some (Fingerprint.stream (Context.merge component.settings l.custom)
      component.template component.script l.mode) := by
  rw [Load.stream?, huri, Option.bind_some, hcomponent]
  rfl

/-- What a noted load digests is among the streams of the loads. -/
theorem Library.mem_streams {library : Library} {loads : List Load} {l : Load} (hl : l ∈ loads)
    {uri : String} {component : Component} (huri : l.uri? = some uri)
    (hcomponent : library uri = .ok component) :
    Fingerprint.stream (Context.merge component.settings l.custom) component.template
      component.script l.mode ∈ library.streams loads :=
  List.mem_filterMap.2 ⟨l, hl, l.stream?_eq huri hcomponent⟩

/-- Loads of one component under one fingerprint are made with the same data in the same mode. -/
theorem CollisionFree.load_eq {library : Library} {loads : List Load}
    (h : CollisionFree (library.streams loads)) {a b : Load} (ha : a ∈ loads) (hb : b ∈ loads)
    {uri : String} {component : Component} (hcomponent : library uri = .ok component)
    (haUri : a.uri? = some uri) (hbUri : b.uri? = some uri)
    (hkey : Renderer.key uri component a.custom a.mode =
      Renderer.key uri component b.custom b.mode) :
    Context.merge component.settings a.custom = Context.merge component.settings b.custom ∧
      a.mode = b.mode :=
  Fingerprint.stream_cut (h _ (library.mem_streams ha haUri hcomponent) _
    (library.mem_streams hb hbUri hcomponent)
    (Fingerprint.digest_eq_of_of_eq (congrArg Prod.snd hkey)))

namespace Renderer

/-- A render forgets no load. -/
theorem renderComponent_loads (r : Renderer) (uri : String) (custom : Option Data)
    (mode : RenderMode) (run : Run) :
    run.loads ⊆ (r.renderComponent uri custom mode run).2.loads := by
  refine r.renderComponent_keeps (run.loads ⊆ ·.loads) (fun s ancestry hs => hs)
    (fun s custom mode hs => List.subset_cons_of_subset _ hs) (fun key rendered s hs => ?_)
    uri custom mode run (List.Subset.refl _)
  rw [kept_loads]
  exact hs

/-! ### What a cached result is worth -/

/-- A cached result is what a load that has been made leads to, below any components and under
any limit. -/
def Backed (r : Renderer) (loads : List Load) (key : String × Fingerprint) (rendered : Rendered) :
    Prop :=
  ∃ load ∈ loads, ∃ component, load.uri? = some key.1 ∧ r.library key.1 = .ok component ∧
    key = Renderer.key key.1 component load.custom load.mode ∧
    ∀ limit stack, r.coldEntered limit stack key.1 component
      (Context.merge component.settings load.custom) load.mode = moved limit stack rendered

/-- All cached results are backed by the loads of the run. -/
def Sound (r : Renderer) (run : Run) : Prop :=
  ∀ key rendered, run.cache.get? key = some rendered → r.Backed run.loads key rendered

/-- What is backed by loads is backed by more of them. -/
theorem Backed.subset {r : Renderer} {loads loads' : List Load} {key : String × Fingerprint}
    {rendered : Rendered} (h : r.Backed loads key rendered) (hsub : loads ⊆ loads') :
    r.Backed loads' key rendered := by
  obtain ⟨load, hload, hbacked⟩ := h
  exact ⟨load, hsub hload, hbacked⟩

/-- Noting a load keeps the cache sound. -/
theorem Sound.noted {r : Renderer} {run : Run} (h : r.Sound run) (custom : Option Data)
    (mode : RenderMode) : r.Sound (noted run custom mode) :=
  fun key rendered hkey => (h key rendered hkey).subset (List.subset_cons_self _ _)

/-- What is cached for a load is what the load leads to. -/
theorem Sound.hit {r : Renderer} {run : Run} (h : r.Sound run)
    (hclear : CollisionFree (r.library.streams run.loads)) {load : Load} (hload : load ∈ run.loads)
    {uri : String} {component : Component} (huri : load.uri? = some uri)
    (hcomponent : r.library uri = .ok component) {rendered : Rendered}
    (hhit : run.cache.get? (key uri component load.custom load.mode) = some rendered)
    (limit : Nat) (stack : List String) :
    r.coldEntered limit stack uri component (Context.merge component.settings load.custom)
      load.mode = moved limit stack rendered := by
  obtain ⟨other, hother, component', huri', hcomponent', hkey, hcold⟩ := h _ _ hhit
  obtain rfl := Except.ok.inj (hcomponent.symm.trans hcomponent')
  obtain ⟨hdata, hmode⟩ := hclear.load_eq hload hother hcomponent huri huri' hkey
  rw [hdata, hmode]
  exact hcold limit stack

/-- A result that is kept is given back, and the cache stays sound. -/
theorem Sound.kept {r : Renderer} {limit : Nat} {run : Run} (h : r.Sound run) (cached : Bool)
    (hclear : CollisionFree (r.library.streams run.loads)) {load : Load} (hload : load ∈ run.loads)
    {uri : String} {component : Component} (huri : load.uri? = some uri)
    (hcomponent : r.library uri = .ok component) {rendered : Rendered} {stack : List String}
    (hcold : r.coldEntered limit stack uri component
      (Context.merge component.settings load.custom) load.mode = .ok rendered) :
    ((r.tuned limit cached).kept (key uri component load.custom load.mode) rendered run).1 =
        .ok rendered ∧
      r.Sound ((r.tuned limit cached).kept (key uri component load.custom load.mode) rendered
        run).2 := by
  constructor
  · refine kept_fst fun old hhit => ?_
    exact (moved_eq_ok_iff.1 ((h.hit hclear hload huri hcomponent hhit limit stack).symm.trans
      hcold)).1
  · intro k found hfound
    rw [Backed, kept_loads]
    rcases cached_of_kept hfound with hold | ⟨rfl, rfl⟩
    · exact h k found hold
    · exact ⟨load, hload, component, huri, hcomponent, rfl,
        fun limit' stack' => r.coldEntered_movable hcold limit' stack'⟩

/-! ### Renders with a cache -/

/-- Renders below some components keep these and the loads, and give with a sound cache what they
give without one. -/
structure Warmed (r : Renderer) (limit : Nat) (stack : List String) (child : RenderChild Run) :
    Prop where
  ancestry : ∀ uri data s, (child uri data s).2.ancestry = s.ancestry
  loads : ∀ uri data s, s.loads ⊆ (child uri data s).2.loads
  result : ∀ uri data s, s.ancestry = stack → r.Sound s →
    CollisionFree (r.library.streams (child uri data s).2.loads) →
    (child uri data s).1 = r.answers limit stack uri data ∧ r.Sound (child uri data s).2

/-- Below some components, with a sound cache, and after a load. -/
def Amid (r : Renderer) (stack : List String) (load : Load) (run : Run) (_ : Unit) : Prop :=
  run.ancestry = stack ∧ r.Sound run ∧ load ∈ run.loads

variable {r : Renderer} {limit : Nat} {cached : Bool} {stack : List String}
  {child : RenderChild Run} {uri : String} {custom : Option Data} {mode : RenderMode} {run : Run}

/-- Resolving with a sound cache gives what it gives without one. -/
theorem Warmed.alike (h : r.Warmed limit stack child) {load : Load} (d : Dialogue)
    (hrun : r.Amid stack load run ())
    (hclear : CollisionFree (r.library.streams (d.run child ⟨run, [], []⟩).after.run.loads)) :
    Dialogue.Alike (r.Amid stack load) (d.run child ⟨run, [], []⟩)
      (d.run (Dialogue.answering (r.answers limit stack)) ⟨(), [], []⟩) := by
  refine d.run_alike _ (fun a => CollisionFree (r.library.streams a.loads))
    (fun uri data a ha => ha.subset (r.library.streams_subset (h.loads uri data a))) ?_ _ _ rfl rfl
    hrun hclear
  rintro uri data a - ⟨ha, hsound, hload⟩ hclear
  obtain ⟨hanswer, hsound'⟩ := h.result uri data a ha hsound hclear
  exact ⟨hanswer, (h.ancestry uri data a).trans ha, hsound', h.loads uri data a hload⟩

/-- A cached result gives what is given without a cache. -/
theorem found_eq (hsound : r.Sound run)
    (hclear : CollisionFree (r.library.streams (noted run custom mode).loads))
    {component : Component} (huri : run.ancestry.getLast? = some uri)
    (hcomponent : r.library uri = .ok component) {rendered : Rendered}
    (hhit : (r.tuned limit cached).hit? uri component custom mode run.cache = some rendered) :
    ((r.tuned limit cached).refusal? run.ancestry rendered.importPaths).elim (.ok rendered)
        .error =
      r.coldEntered limit run.ancestry uri component (Context.merge component.settings custom)
        mode := by
  let load : Load := ⟨run.ancestry, custom, mode⟩
  have hload : load ∈ (noted run custom mode).loads := List.mem_cons_self
  have hcache : (noted run custom mode).cache.get? (key uri component load.custom load.mode) =
      some rendered := get?_of_hit? hhit
  have hcold := (hsound.noted custom mode).hit hclear hload huri hcomponent hcache limit
    run.ancestry
  rw [hcold, refusal?_eq]
  rfl

/-- An entered render with a sound cache gives what it gives without one, if the renders below
do. -/
theorem Warmed.entered (h : r.Warmed limit stack child) (hrun : run.ancestry = stack)
    (huri : stack.getLast? = some uri) (hsound : r.Sound run)
    (hclear : CollisionFree (r.library.streams
      ((r.tuned limit cached).renderEntered child uri custom mode run).2.loads)) :
    ((r.tuned limit cached).renderEntered child uri custom mode run).1 =
        (match r.library uri with
          | .error error => .error (.load error)
          | .ok component => r.coldEntered limit stack uri component
              (Context.merge component.settings custom) mode) ∧
      r.Sound ((r.tuned limit cached).renderEntered child uri custom mode run).2 := by
  let load : Load := ⟨run.ancestry, custom, mode⟩
  have huri' : load.uri? = some uri := (congrArg List.getLast? hrun).trans huri
  have hamid : r.Amid stack load (noted run custom mode) () :=
    ⟨hrun, hsound.noted custom mode, List.mem_cons_self⟩
  simp only [renderEntered_eq, tuned_library] at hclear ⊢
  rcases hcomponent : r.library uri with error | component <;> rw [hcomponent] at hclear
  · exact ⟨rfl, hamid.2.1⟩
  simp only at hclear ⊢
  rcases hhit : (r.tuned limit cached).hit? uri component custom mode run.cache with _ | hit <;>
    rw [hhit] at hclear
  swap
  · exact ⟨hrun ▸ found_eq hsound hclear huri' hcomponent hhit, hamid.2.1⟩
  simp only [renderFresh_eq, tuned_conclude] at hclear ⊢
  unfold coldEntered
  rcases hd : questions uri component (Context.merge component.settings custom) with error | d <;>
    rw [hd] at hclear
  · exact ⟨rfl, hamid.2.1⟩
  simp only at hclear ⊢
  rcases hr : r.conclude uri component (Context.merge component.settings custom) mode
    (d.run child ⟨noted run custom mode, [], []⟩) with error | rendered <;> rw [hr] at hclear
  · have halike := h.alike d hamid hclear
    exact ⟨hr.symm.trans (r.conclude_eq_of_alike uri component _ mode halike), halike.run.2.1⟩
  · simp only [kept_loads] at hclear
    have halike := h.alike d hamid hclear
    obtain ⟨-, hsound', hload⟩ := halike.run
    have hsame := hr.symm.trans (r.conclude_eq_of_alike uri component _ mode halike)
    have hcold : r.coldEntered limit stack uri component
        (Context.merge component.settings load.custom) load.mode = .ok rendered := by
      rw [coldEntered, hd]
      exact hsame.symm
    obtain ⟨hgiven, hsound''⟩ := hsound'.kept cached hclear hload huri' hcomponent hcold
    exact ⟨hgiven.trans hsame, hsound''⟩

/-- **With a sound cache a render gives what it gives without one, and the cache stays sound.** -/
theorem renderComponent_warm (r : Renderer) (limit : Nat) (cached : Bool) (uri : String)
    (custom : Option Data) (mode : RenderMode) (run : Run) (hsound : r.Sound run)
    (hclear : CollisionFree (r.library.streams
      ((r.tuned limit cached).renderComponent uri custom mode run).2.loads)) :
    ((r.tuned limit cached).renderComponent uri custom mode run).1 =
        r.cold limit run.ancestry uri custom mode ∧
      r.Sound ((r.tuned limit cached).renderComponent uri custom mode run).2 := by
  obtain ⟨stack, hstack⟩ : ∃ stack, run.ancestry = stack := ⟨_, rfl⟩
  induction stack using below_induction limit generalizing uri custom mode run with
  | step stack ih =>
    rw [renderComponent_eq, tuned_maxDepth] at hclear
    rw [renderComponent_eq, tuned_maxDepth, cold_eq]
    split_ifs at hclear ⊢ with hcycle hdepth
    · exact ⟨rfl, hsound⟩
    · exact ⟨rfl, hsound⟩
    have hlimit : stack.length ≤ limit := hstack ▸ Nat.le_of_not_lt hdepth
    rw [hstack]
    have hwarmed : r.Warmed limit (stack ++ [uri]) (r.tuned limit cached).descend := by
      refine ⟨fun uri data s => renderComponent_ancestry _ uri (some data) .descendant s,
        fun uri data s => renderComponent_loads _ uri (some data) .descendant s, ?_⟩
      intro child data s hs hsound hclear
      obtain ⟨hanswer, hsound'⟩ := ih hlimit uri child (some data) .descendant s hsound hclear hs
      exact ⟨by rw [answers, ← hs]; exact hanswer, hsound'⟩
    exact hwarmed.entered (by rw [entered, hstack]) List.getLast?_concat hsound hclear

/-! ### Histories -/

/-- A render with a fresh session that has been made earlier with the same cache. -/
structure Earlier where
  maxDepth : Nat
  renderCache : Bool
  uri : String
  custom : Option Data
  mode : RenderMode

/-- What some renders, each with a fresh session, leave for the next one. -/
def after (r : Renderer) (history : List Earlier) (run : Run) : Run :=
  history.foldl (fun run e => ((r.tuned e.maxDepth e.renderCache).renderComponent e.uri e.custom
    e.mode { run with ancestry := [] }).2) run

/-- A session that has no component on its stack is fresh. -/
theorem fresh_eq {run : Run} (h : run.ancestry = []) : { run with ancestry := [] } = run := by
  cases run
  cases h
  rfl

/-- Renders with fresh sessions leave no component on the stack. -/
theorem after_ancestry (r : Renderer) (history : List Earlier) (run : Run)
    (h : run.ancestry = []) : (r.after history run).ancestry = [] := by
  induction history generalizing run with
  | nil => exact h
  | cons e history ih => exact ih _ (renderComponent_ancestry _ _ _ _ _)

/-- Earlier renders forget no load. -/
theorem after_loads (r : Renderer) (history : List Earlier) (run : Run) :
    run.loads ⊆ (r.after history run).loads := by
  induction history generalizing run with
  | nil => exact List.Subset.refl _
  | cons e history ih =>
    exact List.Subset.trans
      (renderComponent_loads _ e.uri e.custom e.mode { run with ancestry := [] }) (ih _)

/-- Any renders leave a sound cache sound. -/
theorem Sound.after {r : Renderer} {history : List Earlier} {run : Run} (h : r.Sound run)
    (hclear : CollisionFree (r.library.streams (r.after history run).loads)) :
    r.Sound (r.after history run) := by
  induction history generalizing run with
  | nil => exact h
  | cons e history ih =>
    refine ih (r.renderComponent_warm e.maxDepth e.renderCache e.uri e.custom e.mode
      { run with ancestry := [] } h ?_).2 hclear
    exact hclear.subset (r.library.streams_subset (r.after_loads history _))

/-- After any renders with the same cache a render gives what it gives on an empty one. -/
theorem after_result (r : Renderer) (history : List Earlier) (uri : String)
    (custom : Option Data) (mode : RenderMode)
    (hclear : CollisionFree (r.library.streams
      ((r.renderComponent uri custom mode (r.after history {})).2.loads ++
        (r.renderComponent uri custom mode {}).2.loads))) :
    (r.renderComponent uri custom mode (r.after history {})).1 =
      (r.renderComponent uri custom mode {}).1 := by
  have hempty : r.Sound {} := fun key rendered h => by cases h
  have hleft := hclear.subset (r.library.streams_subset (List.subset_append_left _ _))
  have hright := hclear.subset (r.library.streams_subset (List.subset_append_right _ _))
  have hsound := hempty.after
    (hleft.subset (r.library.streams_subset (r.renderComponent_loads uri custom mode _)))
  have hwarm := (r.renderComponent_warm r.config.maxDepth r.config.renderCache uri custom mode _
    hsound hleft).1
  have hcold := (r.renderComponent_warm r.config.maxDepth r.config.renderCache uri custom mode {}
    hempty hright).1
  rw [r.after_ancestry history {} rfl] at hwarm
  exact hwarm.trans hcold.symm

/-- **Cache warmth never changes a result.**  After any renders with the same cache, under any
limits and with the cache in use or not, a render gives the same markup, head and chains, or the
same error, as on an empty cache.  The only assumption is that SHA-256 has told apart what the two
runs have digested. -/
theorem warm_eq_cold (r : Renderer) (history : List Earlier) (uri : String)
    (custom : Option Data) (mode : RenderMode)
    (hclear : CollisionFree (r.library.streams
      ((r.renderComponent uri custom mode (r.after history {})).2.loads ++
        (r.renderComponent uri custom mode {}).2.loads))) :
    (r.renderComponent uri custom mode (r.after history {})).1 =
        (r.renderComponent uri custom mode {}).1 ∧
      (mode = .root →
        (r.render uri custom (r.after history {})).1 = (r.render uri custom {}).1) := by
  have hsame := r.after_result history uri custom mode hclear
  refine ⟨hsame, ?_⟩
  rintro rfl
  simp only [render, fresh_eq (r.after_ancestry history {} rfl), hsame]

/-- The hypothesis is satisfiable: a page that has failed under a limit of no imports at all, and
whose card has been rendered alone, is rendered from what these two renders have left. -/
theorem warm_eq_cold_page :
    let registry : Registry := { components := [("card", { template := "<p></p>" }),
      ("page", { settings := { imports := [("x-card", "card")] },
                 template := "<x-card></x-card>" })] }
    let r : Renderer := ⟨registry.library, {}, {}⟩
    let history : List Earlier :=
      [⟨0, true, "page", none, .root⟩, ⟨32, true, "card", none, .descendant⟩]
    (r.renderComponent "page" none .root (r.after history {})).1 =
      (r.renderComponent "page" none .root {}).1 := by
  intro registry r history
  exact (warm_eq_cold r history "page" none .root (by decide +kernel)).1

end Renderer
end HtmlCompose
