/-
# What a page is composed of

A page stands for a tree of renders: the root, the renders that its imports stand for, and
so on down.  A `Composition` is that tree, each render with the trees of its document once
its imports were resolved.  `compose` renders without a cache and keeps the composition of
what it gives; by `render_composed` every successful render has one, also with a cache
that earlier renders have filled, where a hit stands for the render that it repeats.

Two things are read off a composition:

| of | what |
| --- | --- |
| a descendant | the assets that it hands up: those from below in order, its own, its behavior (`head`) |
| a root | the page: the same assets, and a stylesheet, merged into its document (`page`) |

`compose_spec` says that renders give just these.
-/
import HtmlCompose.Proofs.Head.Page
import HtmlCompose.Proofs.Markup.Parsed
import HtmlCompose.Proofs.Render.Warmth

namespace HtmlCompose

open Markup Resolve

/-- A render with the renders below it, in the order in which they were asked for. -/
inductive Composition where
  /-- a component with its data, and the trees of its document once its imports were resolved -/
  | of (uri : String) (component : Component) (data : Data) (nodes : Forest)
    (children : List Composition)

namespace Composition

/-- The address of the component. -/
def uri : Composition → String
  | of uri .. => uri

/-- The component. -/
def component : Composition → Component
  | of _ component .. => component

/-- The data that the component was rendered with. -/
def data : Composition → Data
  | of _ _ data .. => data

/-- The trees of the component's document once its imports were resolved. -/
def nodes : Composition → Forest
  | of _ _ _ nodes _ => nodes

/-- The renders that the component asked for. -/
def children : Composition → List Composition
  | of _ _ _ _ children => children

mutual
/-- All renders of a composition, the topmost one first. -/
def all : Composition → List Composition
  | of uri component data nodes children =>
    of uri component data nodes children :: allOf children

/-- All renders of some compositions. -/
def allOf : List Composition → List Composition
  | [] => []
  | c :: cs => c.all ++ allOf cs
end

/-- All renders below the topmost one. -/
def descendants (c : Composition) : List Composition := allOf c.children

/-- The head assets that stand in the component's own document. -/
def collected (c : Composition) : Head.Assets := (Head.split c.nodes).1

/-- The scripts that bring the component's behavior to a page. -/
def behavior (r : Renderer) (c : Composition) : Head.Assets :=
  r.behavior c.uri c.component c.data

mutual
/-- The head assets that a descendant hands up. -/
def head (r : Renderer) : Composition → Head.Assets
  | of uri component data nodes children =>
    ((gather r [] children).extend (Head.split nodes).1).extend (r.behavior uri component data)

/-- A list of assets with those that some descendants hand up. -/
def gather (r : Renderer) (l : Head.Assets) : List Composition → Head.Assets
  | [] => l
  | c :: cs => gather r (l.extend (c.head r)) cs
end

/-- All assets of a root. -/
def assets (r : Renderer) : Composition → Head.Assets
  | of uri component data nodes children =>
    ((gather r [] children).extend (r.behavior uri component data)).extend (r.style component nodes)

/-- The page of a root. -/
def page (r : Renderer) (c : Composition) : Forest := (Head.merge c.nodes (c.assets r)).1

/-- The renders of two rows of compositions are those of the first, then those of the second. -/
theorem allOf_append (cs ds : List Composition) : allOf (cs ++ ds) = allOf cs ++ allOf ds := by
  induction cs with
  | nil => rfl
  | cons c cs ih => rw [List.cons_append, allOf, allOf, ih, List.append_assoc]

/-- The renders of a single composition in a row are its own. -/
theorem allOf_singleton (c : Composition) : allOf [c] = c.all := by
  rw [allOf, allOf, List.append_nil]

/-- A composition is its topmost render with the descendants. -/
theorem all_eq (c : Composition) : c.all = c :: c.descendants := by
  cases c
  rw [all, descendants, children]

/-- What a descendant hands up: what it gathers from below, then its own assets, then its
behavior. -/
theorem head_eq (r : Renderer) (c : Composition) :
    c.head r = ((gather r [] c.children).extend c.collected).extend (c.behavior r) := by
  cases c
  rfl

/-- What a root brings: what it gathers from below, then its behavior, then its stylesheet. -/
theorem assets_eq (r : Renderer) (c : Composition) :
    c.assets r = ((gather r [] c.children).extend (c.behavior r)).extend
      (r.style c.component c.nodes) := by
  cases c
  rfl

/-- The last of some descendants is gathered last. -/
theorem gather_concat (r : Renderer) (l : Head.Assets) (cs : List Composition) (c : Composition) :
    gather r l (cs ++ [c]) = (gather r l cs).extend (c.head r) := by
  induction cs generalizing l with
  | nil => rfl
  | cons d cs ih => exact ih _

/-! ### Assets of compositions -/

section Assets

open Head Head.Assets

variable {r : Renderer} {P : Head.Assets → Prop}

mutual
/-- What lists without assets have, and a list has that extends one by another, the assets of a
descendant have if what each render brings has it. -/
theorem head_induction (hnil : P []) (hextend : ∀ l others, P l → P others → P (extend l others))
    {c : Composition} (h : ∀ m ∈ c.all, P m.collected ∧ P (m.behavior r)) : P (c.head r) := by
  obtain ⟨uri, component, data, nodes, children⟩ := c
  rw [all, List.forall_mem_cons] at h
  exact hextend _ _ (hextend _ _ (gather_induction hnil hextend hnil h.2) h.1.1) h.1.2

/-- What a list has, it has with the assets of descendants too. -/
theorem gather_induction (hnil : P [])
    (hextend : ∀ l others, P l → P others → P (extend l others)) {l : Head.Assets} (hl : P l)
    {cs : List Composition} (h : ∀ m ∈ allOf cs, P m.collected ∧ P (m.behavior r)) :
    P (gather r l cs) := by
  match cs with
  | [] => exact hl
  | c :: cs =>
    rw [allOf, List.forall_mem_append] at h
    exact gather_induction hnil hextend (hextend _ _ hl (head_induction hnil hextend h.1)) h.2
end

mutual
/-- **No identity is lost on the way up.** -/
theorem hasKey_head {c : Composition} {key : AssetKey} (h : ∃ m ∈ c.all, m.collected.hasKey key) :
    (c.head r).hasKey key := by
  obtain ⟨uri, component, data, nodes, children⟩ := c
  obtain ⟨m, hm, hkey⟩ := h
  rw [all, List.mem_cons] at hm
  rw [head_eq, hasKey_extend, hasKey_extend, Composition.children]
  rcases hm with rfl | hm
  · rw [hkey, Bool.or_true, Bool.true_or]
  · rw [hasKey_gather (.inr ⟨m, hm, hkey⟩), Bool.true_or, Bool.true_or]

/-- No identity of the list or of a descendant is lost by gathering. -/
theorem hasKey_gather {l : Head.Assets} {cs : List Composition} {key : AssetKey}
    (h : l.hasKey key ∨ ∃ m ∈ allOf cs, m.collected.hasKey key) : (gather r l cs).hasKey key := by
  match cs with
  | [] => exact h.elim id fun ⟨m, hm, _⟩ => absurd hm List.not_mem_nil
  | c :: cs =>
    rw [gather]
    refine hasKey_gather ?_
    rw [hasKey_extend, Bool.or_eq_true]
    rcases h with hkey | ⟨m, hm, hkey⟩
    · exact .inl (.inl hkey)
    · rcases List.mem_append.1 hm with hm | hm
      · exact .inl (.inr (hasKey_head ⟨m, hm, hkey⟩))
      · exact .inr ⟨m, hm, hkey⟩
end

/-- Trees that a render brings from assets without identity only. -/
def Loose (r : Renderer) (p : Tree → Bool) (c : Composition) : Prop :=
  (∀ a ∈ c.collected, a.key ≠ .unkeyed → a.trees.countP p = 0) ∧
    ∀ a ∈ c.behavior r, a.key ≠ .unkeyed → a.trees.countP p = 0

/-- The number of trees of a kind that a render brings. -/
def weight (r : Renderer) (p : Tree → Bool) (c : Composition) : Nat :=
  c.collected.trees.countP p + (c.behavior r).trees.countP p

mutual
/-- **Of trees from assets without identity none is lost on the way up.** -/
theorem count_head {p : Tree → Bool} {c : Composition} (h : ∀ m ∈ c.all, m.Loose r p) :
    (c.head r).trees.countP p = (c.all.map (weight r p)).sum := by
  obtain ⟨uri, component, data, nodes, children⟩ := c
  rw [all, List.forall_mem_cons] at h
  obtain ⟨⟨hcollected, hbehavior⟩, hbelow⟩ := h
  have hgather := count_gather (l := []) hbelow
  have hnil : (trees ([] : Head.Assets)).countP p = 0 := rfl
  rw [head_eq, count_extend p hbehavior, count_extend p hcollected, Composition.children, hgather,
    all, List.map_cons, List.sum_cons, weight]
  omega

/-- Gathering loses no tree that comes from assets without identity only. -/
theorem count_gather {p : Tree → Bool} {l : Head.Assets} {cs : List Composition}
    (h : ∀ m ∈ allOf cs, m.Loose r p) :
    (gather r l cs).trees.countP p = l.trees.countP p + ((allOf cs).map (weight r p)).sum := by
  match cs with
  | [] => rfl
  | c :: cs =>
    rw [allOf, List.forall_mem_append] at h
    have hkeyed : ∀ a ∈ c.head r, a.key ≠ .unkeyed → a.trees.countP p = 0 :=
      head_induction (P := fun l => ∀ a ∈ l, a.key ≠ .unkeyed → a.trees.countP p = 0)
        (fun a ha => absurd ha List.not_mem_nil)
        (fun l others hl hothers a ha => (mem_extend ha).elim (hl a) (hothers a)) h.1
    rw [gather, count_gather h.2, count_extend p hkeyed, count_head h.1, allOf, List.map_append,
      List.sum_append, Nat.add_assoc]
end

/-- A page has the trees of its descendants, of its own behavior and of its stylesheet. -/
theorem count_assets {p : Tree → Bool} {c : Composition}
    (h : ∀ m ∈ c.descendants, m.Loose r p)
    (hbehavior : ∀ a ∈ c.behavior r, a.key ≠ .unkeyed → a.trees.countP p = 0)
    (hstyle : ∀ a ∈ r.style c.component c.nodes, a.key ≠ .unkeyed → a.trees.countP p = 0) :
    (c.assets r).trees.countP p = (c.descendants.map (weight r p)).sum +
      (c.behavior r).trees.countP p + (r.style c.component c.nodes).trees.countP p := by
  have hnil : (trees ([] : Head.Assets)).countP p = 0 := rfl
  rw [assets_eq, count_extend p hstyle, count_extend p hbehavior, count_gather h, hnil,
    Nat.zero_add, descendants]

/-- Gathering keeps a list without repetitions. -/
theorem distinct_gather {l : Head.Assets} (hl : l.Distinct) (cs : List Composition) :
    (gather r l cs).Distinct := by
  induction cs generalizing l with
  | nil => exact hl
  | cons c cs ih => exact ih (hl.extend _)

/-- **All assets of a root are without repetitions.** -/
theorem distinct_assets (r : Renderer) (c : Composition) : (c.assets r).Distinct := by
  rw [assets_eq]
  exact ((distinct_gather distinct_nil c.children).extend _).extend _

end Assets

end Composition

namespace Renderer

/-- A way to render with compositions, used where only the renders count: the compositions are
kept in order. -/
def keeping (make : String → Data → Except RenderError (Rendered × Composition)) :
    RenderChild (List Composition) := fun uri data made =>
  match make uri data with
  | .error error => (.error error, made)
  | .ok (rendered, c) => (.ok rendered, made ++ [c])

/-- Renders a component without a cache and keeps the composition, given how many components may
be entered one inside another. -/
def compose (r : Renderer) :
    Nat → String → Option Data → RenderMode → Except RenderError (Rendered × Composition)
  | 0, uri, _, _ => .error (.depthExceeded uri r.config.maxDepth)
  | n + 1, uri, custom, mode =>
    match r.library uri with
    | .error error => .error (.load error)
    | .ok component =>
      let data := Context.merge component.settings custom
      match questions uri component data with
      | .error error => .error error
      | .ok d =>
        let child (uri : String) (data : Data) := compose r n uri (some data) .descendant
        let resolved := d.run (keeping child) ⟨[], [], []⟩
        (r.conclude uri component data mode resolved).map fun rendered =>
          (rendered, .of uri component data resolved.nodes resolved.after.run)

variable {r : Renderer}

/-- Renders that are kept in order have succeeded, each with its composition at the end. -/
theorem keeping_eq_ok {make : String → Data → Except RenderError (Rendered × Composition)}
    {uri : String} {data : Data} {made made' : List Composition} {rendered : Rendered} :
    keeping make uri data made = (.ok rendered, made') ↔
      ∃ c, make uri data = .ok (rendered, c) ∧ made' = made ++ [c] := by
  unfold keeping
  rcases make uri data with error | ⟨rendered', c⟩ <;> simp [eq_comm]

/-- What a render that keeps its composition has been through. -/
theorem compose_eq_ok {n : Nat} {uri : String} {custom : Option Data} {mode : RenderMode}
    {rendered : Rendered} {made : Composition}
    (h : r.compose (n + 1) uri custom mode = .ok (rendered, made)) :
    ∃ component d, r.library uri = .ok component ∧
      questions uri component (Context.merge component.settings custom) = .ok d ∧
      let resolved := d.run (keeping fun uri data => r.compose n uri (some data) .descendant)
        ⟨[], [], []⟩
      r.conclude uri component (Context.merge component.settings custom) mode resolved =
          .ok rendered ∧
        made = .of uri component (Context.merge component.settings custom) resolved.nodes
          resolved.after.run := by
  rw [compose] at h
  rcases hcomponent : r.library uri with error | component <;> rw [hcomponent] at h
  · cases h
  simp only at h
  rcases hd : questions uri component (Context.merge component.settings custom) with error | d <;>
    rw [hd] at h
  · cases h
  simp only at h
  rcases hr : r.conclude uri component (Context.merge component.settings custom) mode
    (d.run (keeping fun uri data => r.compose n uri (some data) .descendant) ⟨[], [], []⟩) with
    error | rendered' <;> rw [hr] at h
  · cases h
  · obtain ⟨rfl, rfl⟩ := Prod.mk.inj (Except.ok.inj h)
    exact ⟨component, d, rfl, hd, hr, rfl⟩

/-! ### Every successful render has a composition -/

/-- **A cold render that succeeds has a composition.** -/
theorem compose_of_cold {limit : Nat} {stack : List String} {uri : String}
    {custom : Option Data} {mode : RenderMode} {rendered : Rendered}
    (h : r.cold limit stack uri custom mode = .ok rendered) :
    ∃ made, r.compose (limit + 1 - stack.length) uri custom mode = .ok (rendered, made) := by
  induction stack using below_induction limit generalizing uri custom mode rendered with
  | step stack ih =>
    rw [cold_eq] at h
    split_ifs at h with hcycle hdepth
    have hlimit : stack.length ≤ limit := Nat.le_of_not_lt hdepth
    have hleft : limit + 1 - stack.length = limit + 1 - (stack ++ [uri]).length + 1 := by
      rw [List.length_append, List.length_singleton]
      omega
    rw [hleft, compose]
    rcases hcomponent : r.library uri with error | component <;> rw [hcomponent] at h
    · cases h
    simp only [coldEntered] at h ⊢
    rcases hd : questions uri component (Context.merge component.settings custom) with error | d <;>
      rw [hd] at h
    · cases h
    simp only at h ⊢
    obtain ⟨hend, -⟩ := conclude_eq_ok h
    have halike := d.run_alike_of_ok (fun (_ : Unit) (_ : List Composition) => True)
      (keeping fun uri' data =>
        r.compose (limit + 1 - (stack ++ [uri]).length) uri' (some data) .descendant)
      (fun uri' data _ made rendered' _ _ hr => by
        obtain ⟨made', hmade'⟩ := ih hlimit uri (Prod.mk.inj hr).1
        exact ⟨_, keeping_eq_ok.2 ⟨made', hmade', rfl⟩, trivial⟩)
      ⟨(), [], []⟩ ⟨[], [], []⟩ rfl rfl trivial hend
    rw [← r.conclude_eq_of_alike uri component _ mode halike, h]
    exact ⟨_, rfl⟩

/-- **Every successful render has a composition**, whatever earlier renders have left in the
cache. -/
theorem render_composed (r : Renderer) (history : List Earlier) (uri : String)
    (custom : Option Data) {html : String}
    (hclear : CollisionFree (r.library.streams
      (r.render uri custom (r.after history {})).2.loads))
    (h : (r.render uri custom (r.after history {})).1 = .ok html) :
    ∃ rendered made, r.compose (r.config.maxDepth + 1) uri custom .root = .ok (rendered, made) ∧
      html = rendered.markup := by
  have hempty : r.Sound {} := fun key rendered h => by cases h
  rw [render, fresh_eq (r.after_ancestry history {} rfl)] at h hclear
  have hsound := hempty.after
    (hclear.subset (r.library.streams_subset (r.renderComponent_loads uri custom .root _)))
  have hwarm := (r.renderComponent_warm r.config.maxDepth r.config.renderCache uri custom .root _
    hsound hclear).1
  rw [r.after_ancestry history {} rfl] at hwarm
  replace h : (r.cold r.config.maxDepth [] uri custom .root).map (·.markup) = .ok html :=
    hwarm ▸ h
  rcases hcold : r.cold r.config.maxDepth [] uri custom .root with error | rendered <;>
    rw [hcold] at h
  · cases h
  · obtain ⟨made, hmade⟩ := compose_of_cold hcold
    exact ⟨rendered, made, hmade, (Except.ok.inj h).symm⟩

/-! ### What renders give is read off their compositions -/

/-- A composition of components of the library. -/
def Composed (r : Renderer) (c : Composition) : Prop :=
  ∀ m ∈ c.all, r.library m.uri = .ok m.component

/-- What a render gives is what its composition says: the assets that a descendant hands up, the
whole page of a root. -/
def Yields (r : Renderer) : RenderMode → Composition → Rendered → Prop
  | .descendant, c, rendered => rendered.head = c.head r
  | .root, c, rendered => rendered.markup = Forest.serialize (c.page r) ∧
      (Head.merge c.nodes (c.assets r)).2 = none

/-- What is concluded from gathered assets is what the composition says. -/
theorem yields_of_conclude {uri : String} {component : Component} {data : Data}
    {mode : RenderMode} {resolved : Resolved (List Composition)} {rendered : Rendered}
    (hhead : resolved.after.head = Composition.gather r [] resolved.after.run)
    (h : r.conclude uri component data mode resolved = .ok rendered) :
    r.Yields mode (.of uri component data resolved.nodes resolved.after.run) rendered := by
  unfold conclude at h
  rw [(conclude_eq_ok h).1] at h
  cases mode with
  | descendant =>
    obtain rfl := Except.ok.inj h
    simp only [Yields, finishDescendant, Composition.head, hhead]
  | root =>
    simp only [finishRoot, hhead] at h
    rw [Yields, Composition.page, Composition.assets, Composition.nodes]
    split at h
    · cases h
    · next page hmerge =>
      obtain rfl := Except.ok.inj h
      rw [hmerge]
      exact ⟨rfl, rfl⟩

/-- **Renders give what their compositions say**, and these are made of components of the
library. -/
theorem compose_spec {n : Nat} {uri : String} {custom : Option Data} {mode : RenderMode}
    {rendered : Rendered} {made : Composition}
    (h : r.compose n uri custom mode = .ok (rendered, made)) :
    r.Composed made ∧ r.Yields mode made rendered := by
  induction n generalizing uri custom mode rendered made with
  | zero => cases h
  | succ n ih =>
    obtain ⟨component, d, hcomponent, -, hconclude, rfl⟩ := compose_eq_ok h
    obtain ⟨hhead, hbelow⟩ := d.run_progress
      (fun p : Progress (List Composition) => p.head = Composition.gather r [] p.run ∧
        ∀ m ∈ Composition.allOf p.run, r.library m.uri = .ok m.component)
      (fun uri data p answer made' ⟨hhead, hknown⟩ hr => by
        obtain ⟨c, hc, rfl⟩ := keeping_eq_ok.1 hr
        obtain ⟨hcomposed, hanswer⟩ := ih hc
        refine ⟨?_, ?_⟩
        · refine Eq.trans ?_ (Composition.gather_concat r [] p.run c).symm
          rw [← hhead, ← show answer.head = c.head r from hanswer]
          rfl
        · intro m hm
          rw [Progress.collect, Composition.allOf_append, Composition.allOf_singleton] at hm
          exact (List.mem_append.1 hm).elim (hknown m) (hcomposed m))
      ⟨[], [], []⟩ ⟨rfl, fun m hm => absurd hm List.not_mem_nil⟩ (conclude_eq_ok hconclude).1
    refine ⟨?_, yields_of_conclude hhead hconclude⟩
    rw [Composed, Composition.all]
    exact List.forall_mem_cons.2 ⟨hcomponent, hbelow⟩

end Renderer
end HtmlCompose
