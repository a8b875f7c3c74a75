/-
# Resolving as a dialogue with the renders below

Resolving a document asks for one component after another, and what it asks for
next depends on the answers so far only: on their markup, by the slots that are in
it.  A `Dialogue` is that tree of questions, without the renderer that answers
them and without the state that the answers change.

`resolveForest_eq_run` says that resolving is carrying on the dialogue of the
trees.  So whatever holds of resolving under every renderer is an induction over
three cases: resolving ends, it stops, or it asks and goes on.  Three facts of
that kind follow here: what the renders below keep, resolving keeps
(`run_invariant`); renderers that answer alike resolve alike (`run_alike`); and a
dialogue that has come to its end can be carried on once more with answers that
refuse some of the chains, where the first chain refused decides (`run_replay`).
-/
import HtmlCompose.Render.Resolve

namespace HtmlCompose
namespace Resolve

open Markup

variable {ρ : Type}

/-- What resolving asks for, and how it goes on with each answer. -/
inductive Dialogue where
  /-- the trees that take the place of the resolved ones -/
  | done (nodes : Forest)
  /-- an error, and the trees as they stand then -/
  | stop (nodes : Forest) (error : RenderError)
  /-- a component is asked for with data; the trees stay as given when it fails -/
  | ask (uri : String) (data : Data) (unchanged : Forest) (next : Rendered → Dialogue)

namespace Dialogue

/-- Carries on a dialogue with renders of components. -/
def run (child : RenderChild ρ) : Dialogue → Action ρ
  | done nodes => keep nodes
  | stop nodes error => fun p => ⟨nodes, some error, p⟩
  | ask uri data unchanged next => fun p =>
    match child uri data p.run with
    | (.error error, run) => ⟨unchanged, some error, { p with run }⟩
    | (.ok rendered, run) => (next rendered).run child ({ p with run }.collect uri rendered)

/-- Goes on with the trees at the end of a dialogue; where it fails, the trees that stay are
changed. -/
def andThen (ok : Forest → Dialogue) (bad : Forest → Forest) : Dialogue → Dialogue
  | done nodes => ok nodes
  | stop nodes error => stop (bad nodes) error
  | ask uri data unchanged next =>
    ask uri data (bad unchanged) fun rendered => (next rendered).andThen ok bad

/-- The trees of a dialogue inside a node. -/
def inside (c : Content) (d : Dialogue) : Dialogue :=
  d.andThen (fun nodes => done [.node c nodes]) fun nodes => [.node c nodes]

/-- One dialogue after another, with the trees of both in a row. -/
def followedBy (d others : Dialogue) (bad : Forest → Forest) : Dialogue :=
  d.andThen (fun nodes => others.andThen (fun more => done (nodes ++ more)) (nodes ++ ·)) bad

mutual
/-- The dialogue about content received by slots. -/
def ofFilled : Filled (Tree × Dialogue) → Dialogue
  | .own c kids => (ofAllFilled kids).inside c
  | .received content => content.2

/-- The dialogue about content received by slots in trees in a row. -/
def ofAllFilled : List (Filled (Tree × Dialogue)) → Dialogue
  | [] => done []
  | t :: ts => (ofFilled t).followedBy (ofAllFilled ts) id
end

/-- The dialogue about an instance, given the ones about its content. -/
def ofInstance (component uri : String) (e : Element) (content : List (Tree × Dialogue)) :
    Dialogue :=
  let unchanged : Forest := [.ofElement e (content.map (·.1))]
  match payload component e.attrs with
  | .error error => stop unchanged error
  | .ok data =>
    ask uri data unchanged fun rendered =>
      match Markup.parse rendered.markup with
      | .error fault => stop unchanged (.markup uri fault)
      | .ok markup =>
        let (filled, left) := Slot.fillForest (Slot.target? ·.1) content markup
        (ofAllFilled filled).andThen done fun _ => [.ofElement e (left.map (·.1))]

mutual
/-- The dialogue about the imports in a tree. -/
def ofTree (component : String) (imports : ImportTable) : Tree → Dialogue
  | .node c kids =>
    match c.element? with
    | none => done [.node c kids]
    | some e =>
      match imports.get? e.name with
      | none => (ofForest component imports kids).inside c
      | some uri => ofInstance component uri e (withDialogues component imports kids)

/-- The dialogue about the imports in trees in a row. -/
def ofForest (component : String) (imports : ImportTable) : List Tree → Dialogue
  | [] => done []
  | t :: ts => (ofTree component imports t).followedBy (ofForest component imports ts) (· ++ ts)

/-- Trees, each with the dialogue about it. -/
def withDialogues (component : String) (imports : ImportTable) :
    List Tree → List (Tree × Dialogue)
  | [] => []
  | t :: ts => (t, ofTree component imports t) :: withDialogues component imports ts
end

/-! ### Resolving carries on the dialogue -/

/-- Going on after a dialogue is going on after its end. -/
theorem run_andThen (child : RenderChild ρ) (ok : Forest → Dialogue) (bad : Forest → Forest)
    (d : Dialogue) (p : Progress ρ) :
    (d.andThen ok bad).run child p =
      match (d.run child p).failure with
      | some _ => { d.run child p with nodes := bad (d.run child p).nodes }
      | none => (ok (d.run child p).nodes).run child (d.run child p).after := by
  induction d generalizing p with
  | done nodes => rfl
  | stop nodes error => rfl
  | ask uri data unchanged next ih =>
    simp only [andThen, run]
    rcases child uri data p.run with ⟨_ | rendered, run⟩
    · rfl
    · exact ih rendered _

/-- A dialogue inside an element runs as it would alone, with the element around its nodes. -/
theorem run_inside (child : RenderChild ρ) (c : Content) (d : Dialogue) (p : Progress ρ) :
    (d.inside c).run child p =
      { d.run child p with nodes := [.node c (d.run child p).nodes] } := by
  rw [inside, run_andThen]
  rcases hr : d.run child p with ⟨nodes, _ | error, after⟩ <;> rfl

/-- The others are run where the first dialogue has not failed, and stand unresolved where it
has. -/
theorem run_followedBy (child : RenderChild ρ) (d others : Dialogue) (bad : Forest → Forest)
    (p : Progress ρ) :
    (d.followedBy others bad).run child p =
      match (d.run child p).failure with
      | some _ => { d.run child p with nodes := bad (d.run child p).nodes }
      | none =>
        { others.run child (d.run child p).after with
          nodes := (d.run child p).nodes ++ (others.run child (d.run child p).after).nodes } := by
  rw [followedBy, run_andThen]
  rcases hr : d.run child p with ⟨nodes, _ | error, after⟩
  · simp only [run_andThen]
    rcases others.run child after with ⟨more, _ | error, last⟩ <;> rfl
  · rfl

end Dialogue

end Resolve

/-! ### Content with its actions -/

/-- A filled tree with its received content changed. -/
def Filled.mapReceived {α β : Type} (g : α → β) : Filled α → Filled β
  | .own c kids => .own c (kids.map (mapReceived g))
  | .received content => .received (g content)

namespace Slot

variable {α β : Type} {target : α → Option String} {target' : β → Option String} {g : α → β}

/-- What a slot takes changes with what stands for the content. -/
theorem take_map (hg : ∀ a, target' (g a) = target a) (demand : Demand) (content : List α) :
    take target' demand (content.map g) =
      ((take target demand content).1.map g, (take target demand content).2.map g) := by
  cases demand with
  | everything => rfl
  | named name =>
    have hasks : (fun b => target' b == some name) ∘ g = fun a => target a == some name :=
      funext fun a => by simp only [Function.comp_apply, hg]
    simp only [take, List.find?_map, List.eraseP_map, hasks]
    cases content.find? fun a => target a == some name <;> rfl

mutual
/-- Where content goes depends on the slots that it asks for only. -/
theorem fillTree_map (hg : ∀ a, target' (g a) = target a) (content : List α) (t : Markup.Tree) :
    fillTree target' (content.map g) t =
      ((fillTree target content t).1.map (Filled.mapReceived g),
        (fillTree target content t).2.map g) := by
  obtain ⟨c, kids⟩ := t
  unfold fillTree
  rcases demand? c with _ | demand
  · simp only [fillForest_map hg content kids, List.map_cons, List.map_nil, Filled.mapReceived]
  · simp only [take_map hg demand content]
    rcases take target demand content with ⟨_ | ⟨a, taken⟩, left⟩
    · exact fillForest_map hg content kids
    · simp [Filled.mapReceived]

/-- Where content goes in trees in a row depends on the slots that it asks for only. -/
theorem fillForest_map (hg : ∀ a, target' (g a) = target a) (content : List α)
    (ts : List Markup.Tree) :
    fillForest target' (content.map g) ts =
      ((fillForest target content ts).1.map (Filled.mapReceived g),
        (fillForest target content ts).2.map g) := by
  match ts with
  | [] => rfl
  | t :: ts =>
    simp only [fillForest, fillTree_map hg content t, fillForest_map hg _ ts, List.map_append]
end

end Slot

namespace Resolve

open Markup

variable {ρ : Type}

namespace Dialogue

/-- A tree with the action that carries on its dialogue. -/
def toAction (child : RenderChild ρ) (content : Tree × Dialogue) : Tree × Action ρ :=
  (content.1, content.2.run child)

/-- Turning dialogues into actions leaves the trees. -/
theorem map_fst_toAction (child : RenderChild ρ) (content : List (Tree × Dialogue)) :
    (content.map (toAction child)).map (·.1) = content.map (·.1) := by
  rw [List.map_map]
  rfl

mutual
/-- Resolving a filled tree runs its dialogue. -/
theorem resolveFilled_eq_run (child : RenderChild ρ) (f : Filled (Tree × Dialogue))
    (p : Progress ρ) :
    resolveFilled (f.mapReceived (toAction child)) p = (ofFilled f).run child p := by
  match f with
  | .own c kids =>
    rw [ofFilled, run_inside, ← resolveAllFilled_eq_run child kids p, Filled.mapReceived,
      resolveFilled]
  | .received content => rw [ofFilled, Filled.mapReceived, resolveFilled, toAction]

/-- Resolving filled trees in a row runs their dialogue. -/
theorem resolveAllFilled_eq_run (child : RenderChild ρ) (fs : List (Filled (Tree × Dialogue)))
    (p : Progress ρ) :
    resolveAllFilled (fs.map (Filled.mapReceived (toAction child))) p =
      (ofAllFilled fs).run child p := by
  match fs with
  | [] => rfl
  | f :: fs =>
    rw [ofAllFilled, run_followedBy, ← resolveFilled_eq_run child f p]
    simp only [List.map_cons, resolveAllFilled]
    rcases resolveFilled (f.mapReceived (toAction child)) p with ⟨nodes, _ | error, after⟩
    · simp only [resolveAllFilled_eq_run child fs after]
    · rfl
end

/-- Replacing an instance carries on the dialogue about it. -/
theorem expand_eq_run (i : Importer ρ) (uri : String) (e : Element)
    (content : List (Tree × Dialogue)) (p : Progress ρ) :
    expand i uri e (content.map (toAction i.child)) p =
      (ofInstance i.component uri e content).run i.child p := by
  unfold expand ofInstance
  rw [map_fst_toAction]
  rcases payload i.component e.attrs with error | data
  · rfl
  simp only [run]
  rcases i.child uri data p.run with ⟨error | rendered, run⟩
  · rfl
  simp only
  rcases Markup.parse rendered.markup with fault | markup
  · rfl
  let target (content : Tree × Dialogue) : Option String := Slot.target? content.1
  have hfill : Slot.fillForest (Slot.target? ·.1) (content.map (toAction i.child)) markup =
      ((Slot.fillForest target content markup).1.map (Filled.mapReceived (toAction i.child)),
        (Slot.fillForest target content markup).2.map (toAction i.child)) :=
    Slot.fillForest_map (fun _ => rfl) content markup
  simp only [hfill]
  rcases Slot.fillForest target content markup with ⟨filled, left⟩
  simp only [resolveAllFilled_eq_run, run_andThen, map_fst_toAction]
  rcases (ofAllFilled filled).run i.child _ with ⟨nodes, _ | error, after⟩ <;> rfl

mutual
/-- **Resolving a tree runs its dialogue.** -/
theorem resolveTree_eq_run (i : Importer ρ) (t : Tree) (p : Progress ρ) :
    resolveTree i t p = (ofTree i.component i.imports t).run i.child p := by
  obtain ⟨c, kids⟩ := t
  unfold resolveTree ofTree
  rcases hc : c.element? with _ | e
  · rfl
  simp only
  rcases i.imports.get? e.name with _ | uri
  · rw [run_inside, ← resolveForest_eq_run i kids p]
  · rw [← expand_eq_run, withActions_eq_map]

/-- **Resolving carries on the dialogue of the trees.** -/
theorem resolveForest_eq_run (i : Importer ρ) (ts : List Tree) (p : Progress ρ) :
    resolveForest i ts p = (ofForest i.component i.imports ts).run i.child p := by
  match ts with
  | [] => rfl
  | t :: ts =>
    rw [ofForest, run_followedBy, ← resolveTree_eq_run i t p]
    simp only [resolveForest]
    rcases resolveTree i t p with ⟨nodes, _ | error, after⟩
    · simp only [resolveForest_eq_run i ts after]
    · rfl

/-- The actions of the caller content run its dialogues. -/
theorem withActions_eq_map (i : Importer ρ) (ts : List Tree) :
    withActions i ts = (withDialogues i.component i.imports ts).map (toAction i.child) := by
  match ts with
  | [] => rfl
  | t :: ts =>
    rw [withActions, withDialogues, List.map_cons, ← withActions_eq_map i ts, toAction]
    exact congrArg (fun a => (t, a) :: _) (funext (resolveTree_eq_run i t))
end

/-! ### What holds of every dialogue -/

variable {σ : Type}

/-- A question answered by an error ends the dialogue, with the element unchanged. -/
theorem run_ask_error {child : RenderChild ρ} {uri : String} {data : Data} {unchanged : Forest}
    {next : Rendered → Dialogue} {p : Progress ρ} {error : RenderError} {s : ρ}
    (h : child uri data p.run = (.error error, s)) :
    (ask uri data unchanged next).run child p = ⟨unchanged, some error, { p with run := s }⟩ := by
  simp only [run, h]

/-- A question answered by a rendering goes on with it, collected. -/
theorem run_ask_ok {child : RenderChild ρ} {uri : String} {data : Data} {unchanged : Forest}
    {next : Rendered → Dialogue} {p : Progress ρ} {rendered : Rendered} {s : ρ}
    (h : child uri data p.run = (.ok rendered, s)) :
    (ask uri data unchanged next).run child p =
      (next rendered).run child ({ p with run := s }.collect uri rendered) := by
  simp only [run, h]

/-- What every render below keeps of the state, a dialogue keeps. -/
theorem run_invariant {child : RenderChild ρ} (Inv : ρ → Prop)
    (hchild : ∀ uri data s, Inv s → Inv (child uri data s).2) (d : Dialogue) (p : Progress ρ)
    (hp : Inv p.run) : Inv (d.run child p).after.run := by
  induction d generalizing p with
  | done nodes => exact hp
  | stop nodes error => exact hp
  | ask uri data unchanged next ih =>
    have hstep := hchild uri data p.run hp
    rcases hr : child uri data p.run with ⟨_ | rendered, s⟩ <;> rw [hr] at hstep
    · rw [run_ask_error hr]
      exact hstep
    · rw [run_ask_ok hr]
      exact ih rendered _ hstep

/-- What has held before every render below, if it holds after it, has held before a dialogue. -/
theorem run_before {child : RenderChild ρ} (P : ρ → Prop)
    (hchild : ∀ uri data s, P (child uri data s).2 → P s) (d : Dialogue) (p : Progress ρ)
    (hp : P (d.run child p).after.run) : P p.run := by
  refine Classical.byContradiction fun hn => ?_
  exact run_invariant (fun s => ¬P s) (fun uri data s hs h => hs (hchild uri data s h))
    d p hn hp

/-- Two results of resolving that show the same, with related states behind them. -/
structure Alike (R : ρ → σ → Prop) (r : Resolved ρ) (s : Resolved σ) : Prop where
  nodes : r.nodes = s.nodes
  failure : r.failure = s.failure
  head : r.after.head = s.after.head
  paths : r.after.paths = s.after.paths
  run : R r.after.run s.after.run

/-- **Renders that answer alike resolve alike.**  The answers have to agree only on the way to
a state with the property `P`, which holds before a render if it holds after it. -/
theorem run_alike (R : ρ → σ → Prop) (P : ρ → Prop) {child₁ : RenderChild ρ}
    {child₂ : RenderChild σ} (hP : ∀ uri data a, P (child₁ uri data a).2 → P a)
    (hchild : ∀ uri data a b, R a b → P (child₁ uri data a).2 →
      (child₁ uri data a).1 = (child₂ uri data b).1 ∧
        R (child₁ uri data a).2 (child₂ uri data b).2)
    (d : Dialogue) (p : Progress ρ) (q : Progress σ) (hhead : p.head = q.head)
    (hpaths : p.paths = q.paths) (hrun : R p.run q.run)
    (hend : P (d.run child₁ p).after.run) : Alike R (d.run child₁ p) (d.run child₂ q) := by
  induction d generalizing p q with
  | done nodes => exact ⟨rfl, rfl, hhead, hpaths, hrun⟩
  | stop nodes error => exact ⟨rfl, rfl, hhead, hpaths, hrun⟩
  | ask uri data unchanged next ih =>
    have hstep := hchild uri data p.run q.run hrun
    rcases hr : child₁ uri data p.run with ⟨error | rendered, s⟩ <;>
      rcases hs : child₂ uri data q.run with ⟨error' | rendered', t⟩ <;>
      rw [hr, hs] at hstep
    · rw [run_ask_error hr] at hend ⊢
      rw [run_ask_error hs]
      obtain ⟨he, hst⟩ := hstep hend
      exact ⟨rfl, congrArg some (Except.error.inj he), hhead, hpaths, hst⟩
    · rw [run_ask_error hr] at hend
      exact absurd (hstep hend).1 (by simp)
    · rw [run_ask_ok hr] at hend
      exact absurd (hstep (run_before P hP _ _ hend)).1 (by simp)
    · rw [run_ask_ok hr] at hend ⊢
      rw [run_ask_ok hs]
      obtain ⟨he, hst⟩ := hstep (run_before P hP _ _ hend)
      obtain rfl := Except.ok.inj he
      refine ih rendered _ _ ?_ ?_ hst hend
      · simp only [Progress.collect, hhead]
      · simp only [Progress.collect, hpaths]

/-- What holds of the progress after every answer, if it holds before, holds at the end. -/
theorem run_progress {child : RenderChild ρ} (Inv : Progress ρ → Prop)
    (hchild : ∀ uri data p rendered s, Inv p → child uri data p.run = (.ok rendered, s) →
      Inv ({ p with run := s }.collect uri rendered))
    (d : Dialogue) (p : Progress ρ) (hp : Inv p) (hend : (d.run child p).failure = none) :
    Inv (d.run child p).after := by
  induction d generalizing p with
  | done nodes => exact hp
  | stop nodes error => cases hend
  | ask uri data unchanged next ih =>
    rcases hr : child uri data p.run with ⟨_ | rendered, s⟩
    · rw [run_ask_error hr] at hend
      cases hend
    · rw [run_ask_ok hr] at hend ⊢
      exact ih rendered _ (hchild uri data p rendered s hp hr) hend

/-- A dialogue that comes to its end comes to the same end with renders that give the same
wherever the first ones succeed. -/
theorem run_alike_of_ok (R : ρ → σ → Prop) {child₁ : RenderChild ρ} (child₂ : RenderChild σ)
    (hchild : ∀ uri data a b rendered s, R a b → child₁ uri data a = (.ok rendered, s) →
      ∃ t, child₂ uri data b = (.ok rendered, t) ∧ R s t)
    (d : Dialogue) (p : Progress ρ) (q : Progress σ) (hhead : p.head = q.head)
    (hpaths : p.paths = q.paths) (hrun : R p.run q.run)
    (hend : (d.run child₁ p).failure = none) : Alike R (d.run child₁ p) (d.run child₂ q) := by
  induction d generalizing p q with
  | done nodes => exact ⟨rfl, rfl, hhead, hpaths, hrun⟩
  | stop nodes error => cases hend
  | ask uri data unchanged next ih =>
    rcases hr : child₁ uri data p.run with ⟨_ | rendered, s⟩
    · rw [run_ask_error hr] at hend
      cases hend
    · obtain ⟨t, ht, hst⟩ := hchild uri data p.run q.run rendered s hrun hr
      rw [run_ask_ok hr] at hend ⊢
      rw [run_ask_ok ht]
      refine ih rendered _ _ ?_ ?_ hst hend
      · simp only [Progress.collect, hhead]
      · simp only [Progress.collect, hpaths]

/-- Renders that give the same in every state on the way to a state with the property `P` resolve
to the same. -/
theorem run_congr {child₁ child₂ : RenderChild ρ} (Inv P : ρ → Prop)
    (hP : ∀ uri data s, P (child₁ uri data s).2 → P s)
    (hchild : ∀ uri data s, Inv s → P (child₁ uri data s).2 →
      child₁ uri data s = child₂ uri data s)
    (hInv : ∀ uri data s, Inv s → Inv (child₁ uri data s).2) (d : Dialogue) (p : Progress ρ)
    (hp : Inv p.run) (hend : P (d.run child₁ p).after.run) : d.run child₁ p = d.run child₂ p := by
  obtain ⟨hnodes, hfailure, hhead, hpaths, hrun⟩ :=
    run_alike (fun a b => a = b ∧ Inv a) P hP
      (fun uri data a b ⟨hab, ha⟩ hPa => by
        subst hab
        exact ⟨by rw [hchild uri data a ha hPa], by rw [hchild uri data a ha hPa],
          hInv uri data a ha⟩)
      d p p rfl rfl ⟨rfl, hp⟩ hend
  rcases hr : d.run child₁ p with ⟨nodes, failure, s, head, paths⟩
  rcases hs : d.run child₂ p with ⟨nodes', failure', s', head', paths'⟩
  simp_all

/-- Renders that are the same wherever they do not fail with certain errors resolve to the same,
unless resolving fails with one of these. -/
theorem run_congr_unless {child₁ child₂ : RenderChild ρ} (Inv : ρ → Prop)
    (Bad : RenderError → Prop)
    (hchild : ∀ uri data s, Inv s → (∀ error, (child₁ uri data s).1 = .error error → ¬Bad error) →
      child₁ uri data s = child₂ uri data s)
    (hInv : ∀ uri data s, Inv s → Inv (child₁ uri data s).2) (d : Dialogue) (p : Progress ρ)
    (hp : Inv p.run) (hend : ∀ error, (d.run child₁ p).failure = some error → ¬Bad error) :
    d.run child₁ p = d.run child₂ p := by
  induction d generalizing p with
  | done nodes => rfl
  | stop nodes error => rfl
  | ask uri data unchanged next ih =>
    have hkeep := hInv uri data p.run hp
    rcases hr : child₁ uri data p.run with ⟨error | rendered, s⟩ <;> rw [hr] at hkeep
    · rw [run_ask_error hr] at hend ⊢
      refine (run_ask_error ((hchild uri data p.run hp fun error' h => ?_).symm.trans hr)).symm
      rw [hr] at h
      exact hend error' (congrArg some (Except.error.inj h))
    · rw [run_ask_ok hr] at hend ⊢
      rw [ih rendered _ hkeep hend]
      refine (run_ask_ok ((hchild uri data p.run hp fun error' h => ?_).symm.trans hr)).symm
      rw [hr] at h
      cases h

/-- Renders whose results depend on the component and the data only. -/
def answering (answers : String → Data → Except RenderError Rendered) : RenderChild Unit :=
  fun uri data s => (answers uri data, s)

/-- **A finished dialogue is replayed by its chains.**  Let every answer be repeated unless one of
its chains is refused, and then be the error of the first one.  Then the whole dialogue is repeated
unless one of the chains that it has collected is refused, and then fails with the error of the
first one. -/
theorem run_replay {refuse : List String → Option RenderError}
    {answers again : String → Data → Except RenderError Rendered}
    (hagain : ∀ uri data rendered, answers uri data = .ok rendered → again uri data =
      (([uri] :: rendered.importPaths.map (uri :: ·)).findSome? refuse).elim (.ok rendered) .error)
    (d : Dialogue) (p : Progress Unit) (hend : (d.run (answering answers) p).failure = none) :
    ∃ chains, (d.run (answering answers) p).after.paths = p.paths ++ chains ∧
      match chains.findSome? refuse with
      | none => d.run (answering again) p = d.run (answering answers) p
      | some error => (d.run (answering again) p).failure = some error := by
  induction d generalizing p with
  | done nodes => exact ⟨[], (List.append_nil _).symm, rfl⟩
  | stop nodes error => simp [run] at hend
  | ask uri data unchanged next ih =>
    rcases ha : answers uri data with error | rendered
    · rw [run_ask_error (s := p.run) (by rw [answering, ha])] at hend
      simp at hend
    · have hrun : (ask uri data unchanged next).run (answering answers) p =
          (next rendered).run (answering answers) (p.collect uri rendered) :=
        run_ask_ok (s := p.run) (by rw [answering, ha])
      have hnow := hagain uri data rendered ha
      rw [hrun] at hend ⊢
      obtain ⟨chains, hpaths, hrest⟩ := ih rendered _ hend
      refine ⟨([uri] :: rendered.importPaths.map (uri :: ·)) ++ chains, ?_, ?_⟩
      · rw [hpaths, Progress.collect, List.append_assoc]
      · rw [List.findSome?_append]
        rcases hf : ([uri] :: rendered.importPaths.map (uri :: ·)).findSome? refuse with
          _ | error <;>
          rw [hf] at hnow
        · rw [Option.none_or, run_ask_ok (s := p.run) (by rw [answering, hnow]; rfl)]
          exact hrest
        · rw [Option.some_or, run_ask_error (s := p.run) (by rw [answering, hnow]; rfl)]

end Dialogue
end Resolve
end HtmlCompose
