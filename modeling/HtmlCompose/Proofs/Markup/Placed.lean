/-
# Trees in their places

A `Placed` tree says of each of its nodes at which handle it stands.  A document *shows*
it (`Document.Shows`) if it has these nodes at these handles, each with the content, the
parent and the children that the tree says.  So one record per node is all that there is
to know, and three facts carry every argument about documents:

* a document that has the same records at the handles of a placed tree shows it too
  (`Shows.frame`), so an edit has to be compared with the handles only,
* a walk from the topmost handle gives the tree (`Shows.tree_eq`), because a tree with
  its nodes at different handles is no deeper than the document has nodes,
* so does a walk without any bound (`Shows.unfolds`).
-/
import HtmlCompose.Markup.Document
import Mathlib

namespace HtmlCompose
namespace Markup

/-- A tree with the handle of each node. -/
inductive Placed where
  | node (handle : Handle) (content : Content) (children : List Placed)

namespace Placed

/-- Where the topmost node stands. -/
def handle : Placed → Handle
  | node h _ _ => h

mutual
/-- The tree without the handles. -/
def tree : Placed → Tree
  | node _ c kids => .node c (forest kids)

/-- The trees without the handles. -/
def forest : List Placed → Forest
  | [] => []
  | k :: kids => k.tree :: forest kids
end

mutual
/-- All handles, each before those below it. -/
def handles : Placed → List Handle
  | node h _ kids => h :: allHandles kids

/-- All handles of trees in a row. -/
def allHandles : List Placed → List Handle
  | [] => []
  | k :: kids => k.handles ++ allHandles kids
end

/-- The topmost node is one of the nodes of a tree. -/
theorem handle_mem (P : Placed) : P.handle ∈ P.handles := by
  cases P
  exact List.mem_cons_self

/-- The handles of a row in two parts are those of the first and those of the second. -/
theorem allHandles_append (Ps Qs : List Placed) :
    allHandles (Ps ++ Qs) = allHandles Ps ++ allHandles Qs := by
  induction Ps with
  | nil => rfl
  | cons P Ps ih => rw [List.cons_append, allHandles, ih, allHandles, List.append_assoc]

/-- The trees of a row in two parts are those of the first and those of the second. -/
theorem forest_append (Ps Qs : List Placed) : forest (Ps ++ Qs) = forest Ps ++ forest Qs := by
  induction Ps with
  | nil => rfl
  | cons P Ps ih => rw [List.cons_append, forest, ih, forest, List.cons_append]

/-- The topmost nodes of a row are among its nodes. -/
theorem map_handle_subset (Ps : List Placed) : Ps.map handle ⊆ allHandles Ps := by
  induction Ps with
  | nil => exact List.Subset.refl _
  | cons P Ps ih =>
    rw [List.map_cons, List.cons_subset, allHandles]
    exact ⟨List.mem_append_left _ P.handle_mem, List.subset_append_of_subset_right _ ih⟩

/-- The handles of a row of one tree are those of the tree. -/
theorem allHandles_singleton (P : Placed) : allHandles [P] = P.handles := by
  rw [allHandles, allHandles, List.append_nil]

end Placed

namespace Document

/-! ### Showing -/

mutual
/-- The document has the nodes of a placed tree, below a parent. -/
def Shows (d : Document) (parent : Option Handle) : Placed → Prop
  | .node h c kids =>
    h < d.size ∧ d.node h = ⟨c, parent, kids.map Placed.handle⟩ ∧ d.ShowsAll (some h) kids

/-- The document has the nodes of placed trees, all below one parent. -/
def ShowsAll (d : Document) (parent : Option Handle) : List Placed → Prop
  | [] => True
  | k :: kids => d.Shows parent k ∧ d.ShowsAll parent kids
end

/-- A row in two parts is shown if both parts are. -/
theorem showsAll_append (d : Document) (parent : Option Handle) (Ps Qs : List Placed) :
    d.ShowsAll parent (Ps ++ Qs) ↔ d.ShowsAll parent Ps ∧ d.ShowsAll parent Qs := by
  induction Ps with
  | nil => simp [ShowsAll]
  | cons P Ps ih => rw [List.cons_append, ShowsAll, ih, ShowsAll, and_assoc]

/-- The topmost node of a tree that is shown has the parent that it is shown below. -/
theorem Shows.parent_eq {d : Document} {parent : Option Handle} {P : Placed}
    (h : d.Shows parent P) : (d.node P.handle).parent = parent := by
  obtain ⟨x, c, kids⟩ := P
  exact congrArg Node.parent h.2.1

mutual
/-- All nodes of a tree that is shown are nodes of the document. -/
theorem Shows.lt {d : Document} {parent : Option Handle} {P : Placed} (h : d.Shows parent P) :
    ∀ x ∈ P.handles, x < d.size := by
  obtain ⟨x, c, kids⟩ := P
  intro y hy
  rw [Placed.handles, List.mem_cons] at hy
  rcases hy with rfl | hy
  · exact h.1
  · exact ShowsAll.lt h.2.2 y hy

/-- All nodes of trees that are shown are nodes of the document. -/
theorem ShowsAll.lt {d : Document} {parent : Option Handle} {Ps : List Placed}
    (h : d.ShowsAll parent Ps) : ∀ x ∈ Placed.allHandles Ps, x < d.size := by
  match Ps with
  | [] => exact fun y hy => absurd hy List.not_mem_nil
  | P :: Ps =>
    intro y hy
    rw [Placed.allHandles, List.mem_append] at hy
    exact hy.elim (Shows.lt h.1 y) (ShowsAll.lt h.2 y)
end

mutual
/-- **What is shown stays shown as long as its nodes stay as they are.** -/
theorem Shows.frame {d d' : Document} {parent : Option Handle} {P : Placed}
    (h : d.Shows parent P) (hsize : d.size ≤ d'.size)
    (hnode : ∀ x ∈ P.handles, d'.node x = d.node x) : d'.Shows parent P := by
  obtain ⟨x, c, kids⟩ := P
  refine ⟨h.1.trans_le hsize, (hnode x List.mem_cons_self).trans h.2.1, ?_⟩
  exact ShowsAll.frame h.2.2 hsize fun y hy => hnode y (List.mem_cons_of_mem x hy)

/-- Trees stay shown by a document that has the same records for their nodes. -/
theorem ShowsAll.frame {d d' : Document} {parent : Option Handle} {Ps : List Placed}
    (h : d.ShowsAll parent Ps) (hsize : d.size ≤ d'.size)
    (hnode : ∀ x ∈ Placed.allHandles Ps, d'.node x = d.node x) : d'.ShowsAll parent Ps := by
  match Ps with
  | [] => trivial
  | P :: Ps =>
    exact ⟨Shows.frame h.1 hsize fun y hy => hnode y (List.mem_append_left _ hy),
      ShowsAll.frame h.2 hsize fun y hy => hnode y (List.mem_append_right _ hy)⟩
end

/-! ### Walking -/

mutual
/-- **Reading down from a node gives the tree that is shown there**, as soon as the bound on the
depth allows as many steps as the tree has nodes. -/
theorem Shows.treeWithin_eq {d : Document} {parent : Option Handle} {P : Placed}
    (h : d.Shows parent P) {n : Nat} (hn : P.handles.length ≤ n + 1) :
    d.treeWithin n P.handle = P.tree := by
  obtain ⟨x, c, kids⟩ := P
  rw [Placed.handles, List.length_cons] at hn
  cases n with
  | zero =>
    have hkids : kids = [] := by
      cases kids with
      | nil => rfl
      | cons k kids =>
        obtain ⟨y, c', kids'⟩ := k
        simp [Placed.allHandles, Placed.handles] at hn
    subst hkids
    rw [treeWithin, content, Placed.handle, h.2.1]
    rfl
  | succ n =>
    rw [treeWithin, content, children, Placed.handle, h.2.1, Placed.tree]
    exact congrArg _ (ShowsAll.treeWithin_eq h.2.2 (by omega))

/-- Reading down from the nodes of a row gives the trees that are shown there. -/
theorem ShowsAll.treeWithin_eq {d : Document} {parent : Option Handle} {Ps : List Placed}
    (h : d.ShowsAll parent Ps) {n : Nat} (hn : (Placed.allHandles Ps).length ≤ n + 1) :
    (Ps.map Placed.handle).map (d.treeWithin n) = Placed.forest Ps := by
  match Ps with
  | [] => rfl
  | P :: Ps =>
    rw [Placed.allHandles, List.length_append] at hn
    rw [List.map_cons, List.map_cons, Shows.treeWithin_eq h.1 (by omega),
      ShowsAll.treeWithin_eq h.2 (by omega), Placed.forest]
end

/-- Distinct numbers below a bound are no more than the bound. -/
theorem length_le_of_nodup {n : Nat} {l : List Nat} (hnodup : l.Nodup) (hlt : ∀ x ∈ l, x < n) :
    l.length ≤ n := by
  have hsub : l.toFinset ⊆ Finset.range n := fun x hx =>
    Finset.mem_range.2 (hlt x (List.mem_toFinset.1 hx))
  have hcard := Finset.card_le_card hsub
  rwa [List.toFinset_card_of_nodup hnodup, Finset.card_range] at hcard

/-- **A walk gives the tree that is shown.** -/
theorem Shows.tree_eq {d : Document} {parent : Option Handle} {P : Placed} (h : d.Shows parent P)
    (hnodup : P.handles.Nodup) : d.tree P.handle = P.tree :=
  h.treeWithin_eq ((length_le_of_nodup hnodup h.lt).trans (Nat.le_succ _))

/-- The trees below the nodes of a row are those that are shown there. -/
theorem ShowsAll.map_tree_eq {d : Document} {parent : Option Handle} {Ps : List Placed}
    (h : d.ShowsAll parent Ps) (hnodup : (Placed.allHandles Ps).Nodup) :
    (Ps.map Placed.handle).map d.tree = Placed.forest Ps := by
  induction Ps with
  | nil => rfl
  | cons P Ps ih =>
    obtain ⟨hP, hPs, -⟩ := List.nodup_append.1 hnodup
    rw [List.map_cons, List.map_cons, h.1.tree_eq hP, ih h.2 hPs, Placed.forest]

/-- A walk without a bound from some nodes gives some trees. -/
inductive Unfolds (d : Document) : List Handle → Forest → Prop where
  | nil : Unfolds d [] []
  | cons {h : Handle} {hs : List Handle} {kids ts : Forest} : Unfolds d (d.children h) kids →
    Unfolds d hs ts → Unfolds d (h :: hs) (.node (d.content h) kids :: ts)

/-- A walk without a bound gives one result at most. -/
theorem Unfolds.eq {d : Document} {hs : List Handle} {ts ts' : Forest} (h : d.Unfolds hs ts)
    (h' : d.Unfolds hs ts') : ts = ts' := by
  induction h generalizing ts' with
  | nil =>
    cases h'
    rfl
  | cons _ _ ihKids ih =>
    cases h' with
    | cons hkids hts => rw [ihKids hkids, ih hts]

mutual
/-- A tree that is shown is what a walk from its topmost node gives. -/
theorem Shows.unfolds {d : Document} {parent : Option Handle} {P : Placed}
    (h : d.Shows parent P) {hs : List Handle} {ts : Forest} (hts : d.Unfolds hs ts) :
    d.Unfolds (P.handle :: hs) (P.tree :: ts) := by
  obtain ⟨x, c, kids⟩ := P
  have hkids := ShowsAll.unfolds h.2.2
  have hchildren : d.children x = kids.map Placed.handle := congrArg Node.children h.2.1
  have hcontent : d.content x = c := congrArg Node.content h.2.1
  rw [← hchildren] at hkids
  rw [Placed.tree, ← hcontent]
  exact .cons hkids hts

/-- **A walk without a bound gives the trees that are shown.** -/
theorem ShowsAll.unfolds {d : Document} {parent : Option Handle} {Ps : List Placed}
    (h : d.ShowsAll parent Ps) : d.Unfolds (Ps.map Placed.handle) (Placed.forest Ps) := by
  match Ps with
  | [] => exact .nil
  | P :: Ps => exact Shows.unfolds h.1 (ShowsAll.unfolds h.2)
end

end Document
end Markup
end HtmlCompose
