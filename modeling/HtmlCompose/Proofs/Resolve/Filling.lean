/-
# Filling slots, with every node in its place

`Slot.fillForest` tells what filling the slots of trees comes to without saying where nodes
stand.  `Placed.fillAll` is the same recursion on placed trees (`fillAll_forest`), so that
it can be said of every node what becomes of it:

| node | becomes |
| --- | --- |
| of the content | part of what a slot has received, or of what is left (`perm_fillAll`) |
| a slot | nothing; what it has received, or else its own children, stand in its place |
| below a slot that has received something | nothing |
| any other node of the component | itself, in the same order (`filter_fillAll`) |

The slots that have received something are noted with it (`Delivery`).  What stands in the
place of a node follows from these notes alone (`map_handle_fillAll`).
-/
import HtmlCompose.Proofs.Markup.Walks
import HtmlCompose.Proofs.Resolve.Dialogue

namespace HtmlCompose

open Markup

/-! ### Filled trees as trees -/

namespace Filled

variable {α β : Type}

mutual
/-- A filled tree with the received content as trees. -/
def toTree (f : α → Tree) : Filled α → Tree
  | .own c kids => .node c (toForest f kids)
  | .received content => f content

/-- Filled trees in a row with the received content as trees. -/
def toForest (f : α → Tree) : List (Filled α) → Forest
  | [] => []
  | t :: ts => toTree f t :: toForest f ts
end

/-- Rows of filled trees become rows of trees part by part. -/
theorem toForest_append (f : α → Tree) (ts us : List (Filled α)) :
    toForest f (ts ++ us) = toForest f ts ++ toForest f us := by
  induction ts with
  | nil => rfl
  | cons t ts ih => rw [List.cons_append, toForest, ih, toForest, List.cons_append]

/-- Received content becomes the trees of the content. -/
theorem toForest_received (f : α → Tree) (content : List α) :
    toForest f (content.map .received) = content.map f := by
  induction content with
  | nil => rfl
  | cons a content ih => rw [List.map_cons, toForest, ih, toTree, List.map_cons]

mutual
/-- Changing what stands for the received content first, and reading it as trees after, reads the
changed content. -/
theorem toTree_mapReceived (g : α → β) (f : β → Tree) (t : Filled α) :
    toTree f (t.mapReceived g) = toTree (f ∘ g) t := by
  match t with
  | .own c kids => rw [mapReceived, toTree, toTree, toForest_mapReceived g f kids]
  | .received content => rw [mapReceived, toTree, toTree, Function.comp_apply]

/-- The same for filled trees in a row. -/
theorem toForest_mapReceived (g : α → β) (f : β → Tree) (ts : List (Filled α)) :
    toForest f (ts.map (mapReceived g)) = toForest (f ∘ g) ts := by
  match ts with
  | [] => rfl
  | t :: ts =>
    rw [List.map_cons, toForest, toForest, toTree_mapReceived g f t, toForest_mapReceived g f ts]
end

end Filled

/-- What a slot takes is cut out of the content. -/
theorem Slot.take_split {α : Type} (target : α → Option String) (demand : Demand)
    (content : List α) : ∃ l₁ l₂, content = l₁ ++ (take target demand content).1 ++ l₂ ∧
      (take target demand content).2 = l₁ ++ l₂ := by
  cases demand with
  | everything => exact ⟨[], [], by simp [take], rfl⟩
  | named name =>
    rcases hfind : content.find? fun a => target a == some name with _ | a
    · refine ⟨content, [], ?_, ?_⟩
      · simp [take, hfind]
      · rw [List.find?_eq_none] at hfind
        simp [take, List.eraseP_of_forall_not hfind]
    · obtain ⟨hasks, l₁, l₂, rfl, hnone⟩ := List.find?_eq_some_iff_append.1 hfind
      have herase : (a :: l₂).eraseP (fun a => target a == some name) = l₂ :=
        List.eraseP_cons_of_pos hasks
      refine ⟨l₁, l₂, by simp [take, hfind], ?_⟩
      rw [take, List.eraseP_append_right _ fun x hx => by simpa using hnone x hx, herase]

namespace Markup
namespace Placed

/-! ### Filling -/

/-- The slot that a tree asks for. -/
def target? (P : Placed) : Option String := Slot.target? P.tree

/-- A slot that has received something, with what it has received. -/
structure Delivery where
  slot : Placed
  content : List Placed

/-- What filling slots comes to. -/
structure Filling where
  /-- the trees with their slots filled -/
  trees : List Placed
  /-- the content that no slot has received -/
  left : List Placed
  /-- the slots that have received something, in their order -/
  deliveries : List Delivery

mutual
/-- A tree with its slots filled. -/
def fill (content : List Placed) : Placed → Filling
  | .node h c kids =>
    match Slot.demand? c with
    | some demand =>
      match Slot.take target? demand content with
      | ([], _) => fillAll content kids
      | (taken, left) => ⟨taken, left, [⟨.node h c kids, taken⟩]⟩
    | none => { fillAll content kids with trees := [.node h c (fillAll content kids).trees] }

/-- Trees in a row with their slots filled. -/
def fillAll (content : List Placed) : List Placed → Filling
  | [] => ⟨[], content, []⟩
  | P :: Ps =>
    ⟨(fill content P).trees ++ (fillAll (fill content P).left Ps).trees,
      (fillAll (fill content P).left Ps).left,
      (fill content P).deliveries ++ (fillAll (fill content P).left Ps).deliveries⟩
end

section Cases

variable {content kids : List Placed} {h : Handle} {c : Content} {demand : Slot.Demand}

/-- A node that is no slot stays, with its children filled. -/
theorem fill_own (hc : Slot.demand? c = none) : fill content (.node h c kids) =
    { fillAll content kids with trees := [.node h c (fillAll content kids).trees] } := by
  rw [fill, hc]

/-- A slot for which there is nothing is replaced by its own children, filled. -/
theorem fill_default (hc : Slot.demand? c = some demand)
    (htake : (Slot.take target? demand content).1 = []) :
    fill content (.node h c kids) = fillAll content kids := by
  rw [fill, hc]
  rcases hr : Slot.take target? demand content with ⟨_ | ⟨C, taken⟩, left⟩
  · simp only [hr]
  · rw [hr] at htake
    cases htake

/-- A slot for which there is something is replaced by it, and the delivery is noted. -/
theorem fill_received (hc : Slot.demand? c = some demand)
    (htake : (Slot.take target? demand content).1 ≠ []) :
    fill content (.node h c kids) =
      ⟨(Slot.take target? demand content).1, (Slot.take target? demand content).2,
        [⟨.node h c kids, (Slot.take target? demand content).1⟩]⟩ := by
  rw [fill, hc]
  rcases hr : Slot.take target? demand content with ⟨_ | ⟨C, taken⟩, left⟩
  · rw [hr] at htake
    exact absurd rfl htake
  · simp only [hr]

end Cases

/-- A single tree in a row is filled as a tree. -/
theorem fillAll_singleton (content : List Placed) (P : Placed) :
    fillAll content [P] = P.fill content := by
  simp only [fillAll, List.append_nil]

/-- Trees in a row are filled one after another. -/
theorem fillAll_append (content As Bs : List Placed) : fillAll content (As ++ Bs) =
    ⟨(fillAll content As).trees ++ (fillAll (fillAll content As).left Bs).trees,
      (fillAll (fillAll content As).left Bs).left,
      (fillAll content As).deliveries ++ (fillAll (fillAll content As).left Bs).deliveries⟩ := by
  induction As generalizing content with
  | nil => simp only [fillAll, List.nil_append]
  | cons A As ih => simp only [List.cons_append, fillAll, ih, List.append_assoc]

/-! ### The same recursion as on trees -/

/-- The trees of placed trees in a row are those of each. -/
theorem forest_eq_map (Ps : List Placed) : forest Ps = Ps.map tree := by
  induction Ps with
  | nil => rfl
  | cons P Ps ih => rw [forest, ih, List.map_cons]

mutual
/-- Filling a placed tree fills its tree and leaves the same content. -/
theorem fill_tree (content : List Placed) (P : Placed) :
    forest (P.fill content).trees =
        Filled.toForest tree (Slot.fillTree target? content P.tree).1 ∧
      (P.fill content).left = (Slot.fillTree target? content P.tree).2 := by
  obtain ⟨h, c, kids⟩ := P
  rw [tree, Slot.fillTree]
  rcases hc : Slot.demand? c with _ | demand
  · obtain ⟨htrees, hleft⟩ := fillAll_forest content kids
    rw [fill_own hc]
    refine ⟨?_, hleft⟩
    simp only [forest, tree, Filled.toForest, Filled.toTree, htrees]
  · rcases hr : Slot.take target? demand content with ⟨_ | ⟨C, taken⟩, left⟩
    · rw [fill_default hc (by rw [hr])]
      simp only [hr]
      exact fillAll_forest content kids
    · rw [fill_received hc (by rw [hr]; exact List.cons_ne_nil C taken)]
      simp only [hr]
      rw [Filled.toForest_received, forest_eq_map]
      exact ⟨rfl, trivial⟩

/-- Filling placed trees in a row fills their trees and leaves the same content. -/
theorem fillAll_forest (content : List Placed) (Ps : List Placed) :
    forest (fillAll content Ps).trees =
        Filled.toForest tree (Slot.fillForest target? content (forest Ps)).1 ∧
      (fillAll content Ps).left = (Slot.fillForest target? content (forest Ps)).2 := by
  match Ps with
  | [] => exact ⟨rfl, rfl⟩
  | P :: Ps =>
    obtain ⟨htrees, hleft⟩ := fill_tree content P
    obtain ⟨htrees', hleft'⟩ := fillAll_forest (P.fill content).left Ps
    rw [hleft] at htrees' hleft'
    simp only [fillAll, forest, Slot.fillForest, forest_append, Filled.toForest_append, hleft,
      htrees, htrees', hleft', and_self]
end

/-- **Filling placed trees fills the trees.** -/
theorem forest_fillAll (content Ps : List Placed) :
    forest (fillAll content Ps).trees =
        Filled.toForest id (Slot.fillForest Slot.target? (forest content) (forest Ps)).1 ∧
      forest (fillAll content Ps).left =
        (Slot.fillForest Slot.target? (forest content) (forest Ps)).2 := by
  obtain ⟨htrees, hleft⟩ := fillAll_forest content Ps
  have hmap : Slot.fillForest Slot.target? (content.map tree) (forest Ps) =
      ((Slot.fillForest target? content (forest Ps)).1.map (Filled.mapReceived tree),
        (Slot.fillForest target? content (forest Ps)).2.map tree) :=
    Slot.fillForest_map (fun _ => rfl) content (forest Ps)
  rw [forest_eq_map content, hmap]
  refine ⟨?_, ?_⟩
  · rw [Filled.toForest_mapReceived, htrees]
    rfl
  · rw [hleft, forest_eq_map]

/-! ### Where the content goes -/

/-- What the slots have received, slot by slot. -/
def Filling.received (f : Filling) : List Placed := f.deliveries.flatMap Delivery.content

mutual
/-- The content is divided between the slots and what is left. -/
theorem perm_fill (content : List Placed) (P : Placed) :
    ((P.fill content).received ++ (P.fill content).left).Perm content := by
  obtain ⟨h, c, kids⟩ := P
  rcases hc : Slot.demand? c with _ | demand
  · rw [fill_own hc]
    exact perm_fillAll content kids
  · by_cases htake : (Slot.take target? demand content).1 = []
    · rw [fill_default hc htake]
      exact perm_fillAll content kids
    · rw [fill_received hc htake, Filling.received]
      obtain ⟨l₁, l₂, hcontent, hleft⟩ := Slot.take_split target? demand content
      generalize Slot.take target? demand content = r at hcontent hleft
      rw [hcontent, hleft, List.flatMap_singleton, List.append_assoc]
      exact List.perm_append_comm_assoc _ _ _

/-- **All content is received by a slot or left over, each tree once.** -/
theorem perm_fillAll (content Ps : List Placed) :
    ((fillAll content Ps).received ++ (fillAll content Ps).left).Perm content := by
  match Ps with
  | [] => exact .refl _
  | P :: Ps =>
    have hfirst := perm_fill content P
    have hothers := perm_fillAll (P.fill content).left Ps
    rw [fillAll, Filling.received, List.flatMap_append, List.append_assoc]
    exact (hothers.append_left _).trans hfirst
end

/-- Reordering trees reorders the nodes they are made of. -/
theorem allHandles_perm {Ps Qs : List Placed} (h : Ps.Perm Qs) :
    (allHandles Ps).Perm (allHandles Qs) := by
  induction h with
  | nil => exact .refl _
  | cons P _ ih => exact ih.append_left _
  | swap P Q Ps =>
    simp only [allHandles]
    exact List.perm_append_comm_assoc _ _ _
  | trans _ _ ih ih' => exact ih.trans ih'

/-- What is left is part of the content. -/
theorem left_subset (content Ps : List Placed) :
    allHandles (fillAll content Ps).left ⊆ allHandles content := fun _ hx =>
  (allHandles_perm (perm_fillAll content Ps)).subset
    (allHandles_append _ _ ▸ List.mem_append_right _ hx)

mutual
/-- Filling uses every node once at most. -/
theorem subperm_fill (content : List Placed) (P : Placed) :
    (allHandles (P.fill content).trees ++ allHandles (P.fill content).left).Subperm
      (P.handles ++ allHandles content) := by
  obtain ⟨h, c, kids⟩ := P
  rcases hc : Slot.demand? c with _ | demand
  · rw [fill_own hc, allHandles_singleton, handles, handles, List.cons_append, List.cons_append,
      List.subperm_cons]
    exact subperm_fillAll content kids
  · rw [handles, List.cons_append]
    by_cases htake : (Slot.take target? demand content).1 = []
    · rw [fill_default hc htake]
      exact (subperm_fillAll content kids).cons_right h
    · have hperm := perm_fill content (.node h c kids)
      rw [fill_received hc htake, Filling.received, List.flatMap_singleton] at hperm
      rw [fill_received hc htake, ← allHandles_append]
      exact ((allHandles_perm hperm).subperm.trans
        (List.sublist_append_right _ _).subperm).cons_right h

/-- Filling a row uses every node of the row and of the content once at most. -/
theorem subperm_fillAll (content Ps : List Placed) :
    (allHandles (fillAll content Ps).trees ++ allHandles (fillAll content Ps).left).Subperm
      (allHandles Ps ++ allHandles content) := by
  match Ps with
  | [] => exact .refl _
  | P :: Ps =>
    have hfirst := subperm_fill content P
    have hothers := subperm_fillAll (P.fill content).left Ps
    rw [fillAll, allHandles_append, allHandles, List.append_assoc, List.append_assoc]
    refine ((List.subperm_append_left _).2 hothers).trans ?_
    refine (List.perm_append_comm_assoc _ _ _).subperm.trans ?_
    refine ((List.subperm_append_left _).2 hfirst).trans ?_
    exact (List.perm_append_comm_assoc _ _ _).subperm
end

/-- Where no node occurs twice, none does after filling. -/
theorem nodup_fillAll {content Ps : List Placed} (h : (allHandles Ps ++ allHandles content).Nodup) :
    (allHandles (fillAll content Ps).trees ++ allHandles (fillAll content Ps).left).Nodup := by
  obtain ⟨used, hperm, hsublist⟩ := subperm_fillAll content Ps
  exact hperm.nodup_iff.1 (h.sublist hsublist)

/-! ### Which slots have received something -/

mutual
/-- The slots of a tree, each before those below it. -/
def slots : Placed → List Handle
  | .node h c kids => if (Slot.demand? c).isSome then h :: slotsAll kids else slotsAll kids

/-- The slots of trees in a row. -/
def slotsAll : List Placed → List Handle
  | [] => []
  | P :: Ps => P.slots ++ slotsAll Ps
end

mutual
/-- The slots of a tree are among its nodes, in the same order. -/
theorem slots_sublist (P : Placed) : P.slots.Sublist P.handles := by
  obtain ⟨h, c, kids⟩ := P
  rw [slots, handles]
  split
  · exact (slotsAll_sublist kids).cons_cons h
  · exact (slotsAll_sublist kids).cons h

/-- The slots of trees in a row are among their nodes, in the same order. -/
theorem slotsAll_sublist (Ps : List Placed) : (slotsAll Ps).Sublist (allHandles Ps) := by
  match Ps with
  | [] => exact .refl _
  | P :: Ps => exact (slots_sublist P).append (slotsAll_sublist Ps)
end

/-- The slots below a node are slots of its tree. -/
theorem slotsAll_subset_slots (h : Handle) (c : Content) (kids : List Placed) :
    slotsAll kids ⊆ slots (.node h c kids) := by
  rw [slots]
  split
  · exact List.subset_cons_self h _
  · exact List.Subset.refl _

/-- A slot of a tree that has received something. -/
structure Delivery.Of (D : Delivery) (slots handles : List Handle) : Prop where
  slot : D.slot.handle ∈ slots
  handles : D.slot.handles ⊆ handles
  content : D.content ≠ []

/-- A slot of a tree is one of every larger tree. -/
theorem Delivery.Of.mono {D : Delivery} {slots slots' handles handles' : List Handle}
    (h : D.Of slots handles) (hslots : slots ⊆ slots') (hhandles : handles ⊆ handles') :
    D.Of slots' handles' :=
  ⟨hslots h.slot, fun _ hx => hhandles (h.handles hx), h.content⟩

mutual
/-- What a tree notes are slots of its own that have received something. -/
theorem of_mem_fill {content : List Placed} {P : Placed} {D : Delivery}
    (hD : D ∈ (P.fill content).deliveries) : D.Of P.slots P.handles := by
  obtain ⟨h, c, kids⟩ := P
  have hkids : D ∈ (fillAll content kids).deliveries →
      D.Of (slots (.node h c kids)) (handles (.node h c kids)) := fun hD =>
    (of_mem_fillAll hD).mono (slotsAll_subset_slots h c kids) (List.subset_cons_self h _)
  rcases hc : Slot.demand? c with _ | demand
  · rw [fill_own hc] at hD
    exact hkids hD
  · by_cases htake : (Slot.take target? demand content).1 = []
    · rw [fill_default hc htake] at hD
      exact hkids hD
    · rw [fill_received hc htake] at hD
      obtain rfl := List.mem_singleton.1 hD
      refine ⟨?_, List.Subset.refl _, htake⟩
      rw [slots, hc]
      exact List.mem_cons_self

/-- **Only slots receive something**, and they do not receive nothing. -/
theorem of_mem_fillAll {content Ps : List Placed} {D : Delivery}
    (hD : D ∈ (fillAll content Ps).deliveries) : D.Of (slotsAll Ps) (allHandles Ps) := by
  match Ps with
  | [] => exact absurd hD List.not_mem_nil
  | P :: Ps =>
    rw [fillAll, List.mem_append] at hD
    rcases hD with hD | hD
    · exact (of_mem_fill hD).mono (List.subset_append_left _ _) (List.subset_append_left _ _)
    · exact (of_mem_fillAll hD).mono (List.subset_append_right _ _) (List.subset_append_right _ _)
end

mutual
/-- A slot that has received something is shown where its tree is. -/
theorem shows_slot {d : Document} {parent : Option Handle} {content : List Placed} {P : Placed}
    {D : Delivery} (hP : d.Shows parent P) (hD : D ∈ (P.fill content).deliveries) :
    ∃ p, d.Shows p D.slot := by
  obtain ⟨h, c, kids⟩ := P
  rcases hc : Slot.demand? c with _ | demand
  · rw [fill_own hc] at hD
    exact shows_slot_all hP.2.2 hD
  · by_cases htake : (Slot.take target? demand content).1 = []
    · rw [fill_default hc htake] at hD
      exact shows_slot_all hP.2.2 hD
    · rw [fill_received hc htake] at hD
      obtain rfl := List.mem_singleton.1 hD
      exact ⟨parent, hP⟩

/-- A slot of a row that has received something is shown where its tree is. -/
theorem shows_slot_all {d : Document} {parent : Option Handle} {content Ps : List Placed}
    {D : Delivery} (hPs : d.ShowsAll parent Ps) (hD : D ∈ (fillAll content Ps).deliveries) :
    ∃ p, d.Shows p D.slot := by
  match Ps with
  | [] => exact absurd hD List.not_mem_nil
  | P :: Ps =>
    rw [fillAll, List.mem_append] at hD
    exact hD.elim (shows_slot hPs.1) (shows_slot_all hPs.2)
end

mutual
/-- What a slot has received is shown where the filled trees are. -/
theorem shows_content {d : Document} {parent : Option Handle} {content : List Placed} {P C : Placed}
    (hP : d.ShowsAll parent (P.fill content).trees) (hC : C ∈ (P.fill content).received) :
    (∃ p, d.Shows p C) ∧ C.handles ⊆ allHandles (P.fill content).trees := by
  obtain ⟨h, c, kids⟩ := P
  rcases hc : Slot.demand? c with _ | demand
  · rw [fill_own hc] at hP hC ⊢
    obtain ⟨hshows, hsubset⟩ := shows_content_all hP.1.2.2 hC
    rw [allHandles_singleton]
    exact ⟨hshows, fun x hx => List.mem_cons_of_mem h (hsubset hx)⟩
  · by_cases htake : (Slot.take target? demand content).1 = []
    · rw [fill_default hc htake] at hP hC ⊢
      exact shows_content_all hP hC
    · rw [fill_received hc htake, Filling.received, List.flatMap_singleton] at hC
      rw [fill_received hc htake] at hP ⊢
      simp only at hP hC ⊢
      obtain ⟨l₁, l₂, hsplit⟩ := List.append_of_mem hC
      rw [hsplit] at hP ⊢
      refine ⟨⟨parent, ((d.showsAll_append parent l₁ (C :: l₂)).1 hP).2.1⟩, fun x hx => ?_⟩
      rw [allHandles_append]
      exact List.mem_append_right _ (List.mem_append_left _ hx)

/-- **What slots have received is among the filled trees, as it was.** -/
theorem shows_content_all {d : Document} {parent : Option Handle} {content Ps : List Placed}
    {C : Placed} (hPs : d.ShowsAll parent (fillAll content Ps).trees)
    (hC : C ∈ (fillAll content Ps).received) :
    (∃ p, d.Shows p C) ∧ C.handles ⊆ allHandles (fillAll content Ps).trees := by
  match Ps with
  | [] => exact absurd hC List.not_mem_nil
  | P :: Ps =>
    rw [fillAll, Document.showsAll_append] at hPs
    rw [fillAll, Filling.received, List.flatMap_append, List.mem_append] at hC
    rw [fillAll, allHandles_append]
    rcases hC with hC | hC
    · obtain ⟨hshows, hsubset⟩ := shows_content hPs.1 hC
      exact ⟨hshows, fun x hx => List.mem_append_left _ (hsubset hx)⟩
    · obtain ⟨hshows, hsubset⟩ := shows_content_all hPs.2 hC
      exact ⟨hshows, fun x hx => List.mem_append_right _ (hsubset hx)⟩
end

/-! ### What becomes of the component's own nodes -/

/-- A node is no slot and lies below no slot that has received something. -/
def Keeps (slots : List Handle) (deliveries : List Delivery) (x : Handle) : Prop :=
  x ∉ slots ∧ ∀ D ∈ deliveries, x ∉ allHandles D.slot.children

instance (slots : List Handle) (deliveries : List Delivery) :
    DecidablePred (Keeps slots deliveries) := fun x =>
  inferInstanceAs (Decidable (x ∉ slots ∧ ∀ D ∈ deliveries, x ∉ allHandles D.slot.children))

/-- A node outside a tree lies below no slot of it. -/
theorem Delivery.Of.below {D : Delivery} {slots handles : List Handle} (h : D.Of slots handles)
    {x : Handle} (hx : x ∉ handles) : x ∉ allHandles D.slot.children := fun hmem =>
  hx (h.handles (D.slot.handles_eq ▸ List.mem_cons_of_mem _ hmem))

mutual
/-- The nodes that a tree keeps are those that are no slots and lie below no served slot of it. -/
theorem filter_fill {content : List Placed} {P : Placed} {own : List Handle}
    (hown : P.handles ⊆ own) (hcontent : ∀ x ∈ allHandles content, x ∉ own)
    (hnodup : P.handles.Nodup) :
    (allHandles (P.fill content).trees).filter (· ∈ own) =
      P.handles.filter (Keeps P.slots (P.fill content).deliveries ·) := by
  obtain ⟨h, c, kids⟩ := P
  rw [handles, List.cons_subset] at hown
  obtain ⟨hh, hkids⟩ := List.nodup_cons.1 hnodup
  have ih := @filter_fillAll content kids own hown.2 hcontent hkids
  rcases hc : Slot.demand? c with _ | demand
  · have hkeeps : Keeps (slotsAll kids) (fillAll content kids).deliveries h :=
      ⟨fun hmem => hh ((slotsAll_sublist kids).subset hmem),
        fun D hD => (of_mem_fillAll hD).below hh⟩
    have hslots : slots (.node h c kids) = slotsAll kids := by rw [slots, hc]; rfl
    rw [fill_own hc, hslots]
    calc (allHandles [node h c (fillAll content kids).trees]).filter (· ∈ own)
        = (h :: allHandles (fillAll content kids).trees).filter (· ∈ own) := by
          rw [allHandles_singleton, handles]
      _ = h :: (allHandles kids).filter
            (Keeps (slotsAll kids) (fillAll content kids).deliveries ·) := by
          rw [← ih, List.filter_cons, if_pos (decide_eq_true hown.1)]
      _ = (h :: allHandles kids).filter
            (Keeps (slotsAll kids) (fillAll content kids).deliveries ·) := by
          rw [List.filter_cons, if_pos (decide_eq_true hkeeps)]
  · have hslots : slots (.node h c kids) = h :: slotsAll kids := by rw [slots, hc]; rfl
    rw [handles, List.filter_cons_of_neg (by simp [Keeps, hslots])]
    by_cases htake : (Slot.take target? demand content).1 = []
    · rw [fill_default hc htake, ih]
      refine List.filter_congr fun x hx => decide_eq_decide.2 (and_congr_left fun _ => ?_)
      have hne : x ≠ h := fun heq => hh (heq ▸ hx)
      rw [hslots, List.mem_cons, or_iff_right hne]
    · have hperm := perm_fill content (.node h c kids)
      rw [fill_received hc htake, Filling.received, List.flatMap_singleton] at hperm
      rw [fill_received hc htake]
      refine Eq.trans (List.filter_eq_nil_iff.2 fun x hx => ?_)
        (List.filter_eq_nil_iff.2 fun x hx => ?_).symm
      · rw [decide_eq_true_eq]
        refine hcontent x ((allHandles_perm hperm).subset ?_)
        rw [allHandles_append]
        exact List.mem_append_left _ hx
      · rw [decide_eq_true_eq]
        exact fun hkeeps => hkeeps.2 _ (List.mem_singleton_self _) hx

/-- **The component keeps its other nodes, in their order**: those that are no slots and lie below
no slot that has received something. -/
theorem filter_fillAll {content Ps : List Placed} {own : List Handle} (hown : allHandles Ps ⊆ own)
    (hcontent : ∀ x ∈ allHandles content, x ∉ own) (hnodup : (allHandles Ps).Nodup) :
    (allHandles (fillAll content Ps).trees).filter (· ∈ own) =
      (allHandles Ps).filter (Keeps (slotsAll Ps) (fillAll content Ps).deliveries ·) := by
  match Ps with
  | [] => rfl
  | P :: Ps =>
    rw [allHandles, List.append_subset] at hown
    rw [allHandles, List.nodup_append'] at hnodup
    obtain ⟨hP, hPs, hdisjoint⟩ := hnodup
    have hleft : ∀ x ∈ allHandles (P.fill content).left, x ∉ own := fun x hx =>
      hcontent x (left_subset content [P] (fillAll_singleton content P ▸ hx))
    rw [fillAll, allHandles, slotsAll, allHandles_append, List.filter_append, List.filter_append,
      filter_fill hown.1 hcontent hP, filter_fillAll hown.2 hleft hPs]
    congr 1
    · refine List.filter_congr fun x hx => decide_eq_decide.2 ?_
      have hxs : x ∉ allHandles Ps := fun hmem => hdisjoint hx hmem
      have hslot : x ∉ slotsAll Ps := fun hmem => hxs ((slotsAll_sublist Ps).subset hmem)
      rw [Keeps, Keeps, List.mem_append, not_or, List.forall_mem_append,
        and_iff_left hslot, and_iff_left fun D hD => (of_mem_fillAll hD).below hxs]
    · refine List.filter_congr fun x hx => decide_eq_decide.2 ?_
      have hxs : x ∉ P.handles := fun hmem => hdisjoint hmem hx
      have hslot : x ∉ P.slots := fun hmem => hxs ((slots_sublist P).subset hmem)
      rw [Keeps, Keeps, List.mem_append, not_or, List.forall_mem_append,
        and_iff_right hslot, and_iff_right fun D hD => (of_mem_fill hD).below hxs]
end

/-! ### What stands in the place of a node -/

/-- The slots that have received something, with what they have received. -/
def Filling.notes (f : Filling) : List (Handle × List Handle) :=
  f.deliveries.map fun D => (D.slot.handle, D.content.map handle)

mutual
/-- What stands in the place of a tree: what it has received if it is a slot, or else what stands in
the places of its children; and itself if it is none. -/
def stand (notes : List (Handle × List Handle)) : Placed → List Handle
  | .node h c kids =>
    if (Slot.demand? c).isSome then
      match notes.lookup h with
      | some content => content
      | none => standAll notes kids
    else [h]

/-- What stands in the places of trees in a row. -/
def standAll (notes : List (Handle × List Handle)) : List Placed → List Handle
  | [] => []
  | P :: Ps => P.stand notes ++ standAll notes Ps
end

/-- Nothing is noted of a node that is no slot. -/
theorem lookup_notes_eq_none {f : Filling} {h : Handle} {slots handles : List Handle}
    (hf : ∀ D ∈ f.deliveries, D.Of slots handles) (hh : h ∉ slots) : f.notes.lookup h = none := by
  rw [List.lookup_eq_none_iff]
  intro note hnote
  obtain ⟨D, hD, rfl⟩ := List.mem_map.1 hnote
  rw [bne_iff_ne]
  rintro rfl
  exact hh (hf D hD).slot

/-- The notes of a row are those of its first tree, then those of the others. -/
theorem notes_cons (content : List Placed) (P : Placed) (Ps : List Placed) :
    (fillAll content (P :: Ps)).notes =
      (P.fill content).notes ++ (fillAll (P.fill content).left Ps).notes := by
  rw [fillAll, Filling.notes, List.map_append, Filling.notes, Filling.notes]

/-- What is noted of a row of trees is noted of each of its parts. -/
theorem lookup_notes_cons {content : List Placed} {P : Placed} {Ps : List Placed}
    {notes : List (Handle × List Handle)} (hnodup : (allHandles (P :: Ps)).Nodup)
    (hnotes : ∀ h ∈ slotsAll (P :: Ps), notes.lookup h =
      (fillAll content (P :: Ps)).notes.lookup h) :
    (∀ h ∈ P.slots, notes.lookup h = (P.fill content).notes.lookup h) ∧
      ∀ h ∈ slotsAll Ps, notes.lookup h =
        (fillAll (P.fill content).left Ps).notes.lookup h := by
  rw [allHandles, List.nodup_append'] at hnodup
  obtain ⟨-, -, hdisjoint⟩ := hnodup
  rw [slotsAll, List.forall_mem_append, notes_cons] at hnotes
  refine ⟨fun h hh => ?_, fun h hh => ?_⟩
  · have hnone : (fillAll (P.fill content).left Ps).notes.lookup h = none :=
      lookup_notes_eq_none (fun _ => of_mem_fillAll) fun hmem =>
        hdisjoint ((slots_sublist P).subset hh) ((slotsAll_sublist Ps).subset hmem)
    rw [hnotes.1 h hh, List.lookup_append, hnone, Option.or_none]
  · have hnone : (P.fill content).notes.lookup h = none :=
      lookup_notes_eq_none (fun _ => of_mem_fill) fun hmem =>
        hdisjoint ((slots_sublist P).subset hmem) ((slotsAll_sublist Ps).subset hh)
    rw [hnotes.2 h hh, List.lookup_append, hnone, Option.none_or]

/-- What is noted of a node is noted of the trees below it. -/
theorem lookup_notes_below {content : List Placed} {h : Handle} {c : Content} {kids : List Placed}
    {notes : List (Handle × List Handle)}
    (hfill : (fill content (.node h c kids)).notes = (fillAll content kids).notes)
    (hnotes : ∀ x ∈ slots (.node h c kids), notes.lookup x =
      (fill content (.node h c kids)).notes.lookup x) :
    ∀ x ∈ slotsAll kids, notes.lookup x = (fillAll content kids).notes.lookup x := fun x hx =>
  hfill ▸ hnotes x (slotsAll_subset_slots h c kids hx)

mutual
/-- What stands in the place of a tree follows from the notes of its slots. -/
theorem map_handle_fill {content : List Placed} {P : Placed} {notes : List (Handle × List Handle)}
    (hnodup : P.handles.Nodup)
    (hnotes : ∀ h ∈ P.slots, notes.lookup h = (P.fill content).notes.lookup h) :
    (P.fill content).trees.map handle = P.stand notes := by
  obtain ⟨h, c, kids⟩ := P
  obtain ⟨hh, hkids⟩ := List.nodup_cons.1 hnodup
  rcases hc : Slot.demand? c with _ | demand
  · rw [fill_own hc, stand, hc]
    rfl
  · have hslot : h ∈ slots (.node h c kids) := by rw [slots, hc]; exact List.mem_cons_self
    have hlookup := hnotes h hslot
    rw [stand, hc, hlookup]
    by_cases htake : (Slot.take target? demand content).1 = []
    · have hnone : (fillAll content kids).notes.lookup h = none :=
        lookup_notes_eq_none (fun _ => of_mem_fillAll) fun hmem =>
          hh ((slotsAll_sublist kids).subset hmem)
      rw [fill_default hc htake, hnone]
      exact map_handle_fillAll hkids (lookup_notes_below (by rw [fill_default hc htake]) hnotes)
    · rw [fill_received hc htake, Filling.notes, List.map_singleton]
      simp [handle]

/-- **What stands in the place of trees follows from the notes.** -/
theorem map_handle_fillAll {content Ps : List Placed} {notes : List (Handle × List Handle)}
    (hnodup : (allHandles Ps).Nodup)
    (hnotes : ∀ h ∈ slotsAll Ps, notes.lookup h = (fillAll content Ps).notes.lookup h) :
    (fillAll content Ps).trees.map handle = standAll notes Ps := by
  match Ps with
  | [] => rfl
  | P :: Ps =>
    obtain ⟨hP, hPs⟩ := lookup_notes_cons hnodup hnotes
    rw [allHandles, List.nodup_append'] at hnodup
    rw [fillAll, List.map_append, map_handle_fill hnodup.1 hP, map_handle_fillAll hnodup.2.1 hPs,
      standAll]
end

end Placed
end Markup
end HtmlCompose
