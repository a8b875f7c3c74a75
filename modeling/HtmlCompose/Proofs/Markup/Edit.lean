/-
# What edits do to the nodes

Every edit of a document changes the records of one or two nodes and leaves all others
as they are.  The facts here say so for each edit, one fact for each node that changes
and one for the rest.

Copying a tree adds its nodes at fresh handles, in preorder (`adopt_spec`).  A document
made from trees shows them below its root (`ofForest_shows`).
-/
import HtmlCompose.Proofs.Markup.Placed

namespace HtmlCompose
namespace Markup
namespace Document

/-! ### One node -/

/-- An edit of a record keeps the number of nodes. -/
@[simp] theorem size_modify (d : Document) (h : Handle) (f : Node → Node) :
    (d.modify h f).size = d.size :=
  Array.size_modify

/-- The record that is edited is changed by the function. -/
theorem node_modify_self {d : Document} {h : Handle} (hh : h < d.size) (f : Node → Node) :
    (d.modify h f).node h = f (d.node h) := by
  have hsome : d.nodes[h]? = some d.nodes[h] := Array.getElem?_eq_getElem hh
  simp only [node, modify, Array.getD_eq_getD_getElem?, Array.getElem?_modify, if_true, hsome]
  rfl

/-- An edit of one record leaves all others. -/
theorem node_modify_of_ne {d : Document} {h x : Handle} (hx : x ≠ h) (f : Node → Node) :
    (d.modify h f).node x = d.node x := by
  simp only [node, modify, Array.getD_eq_getD_getElem?, Array.getElem?_modify, if_neg hx.symm]

@[simp] theorem size_setContent (d : Document) (h : Handle) (c : Content) :
    (d.setContent h c).size = d.size :=
  d.size_modify h _

/-- A node with new content keeps its links. -/
theorem node_setContent_self {d : Document} {h : Handle} (hh : h < d.size) (c : Content) :
    (d.setContent h c).node h = { d.node h with content := c } :=
  node_modify_self hh _

/-- New content for one node leaves all other nodes. -/
theorem node_setContent_of_ne {d : Document} {h x : Handle} (hx : x ≠ h) (c : Content) :
    (d.setContent h c).node x = d.node x :=
  node_modify_of_ne hx _

@[simp] theorem size_create (d : Document) (c : Content) : (d.create c).1.size = d.size + 1 :=
  Array.size_push _

/-- The node that is created has no links. -/
theorem node_create_self (d : Document) (c : Content) :
    (d.create c).1.node d.size = ⟨c, none, []⟩ := by
  simp only [node, create, size, Array.getD_eq_getD_getElem?, Array.getElem?_push_size]
  rfl

/-- A new node leaves those that were there. -/
theorem node_create_of_lt {d : Document} {x : Handle} (hx : x < d.size) (c : Content) :
    (d.create c).1.node x = d.node x := by
  have hne : ¬x = d.nodes.size := Nat.ne_of_lt hx
  simp only [node, create, Array.getD_eq_getD_getElem?, Array.getElem?_push, if_neg hne]

/-! ### Links -/

@[simp] theorem size_link (d : Document) (p h : Handle) (place : List Handle → List Handle) :
    (d.link p h place).size = d.size := by
  rw [link, size_modify, size_modify]

/-- The new parent gets the handle among its children, where the placing puts it. -/
theorem node_link_parent {d : Document} {p h : Handle} (hp : p < d.size) (hne : p ≠ h)
    (place : List Handle → List Handle) :
    (d.link p h place).node p = { d.node p with children := place (d.node p).children } := by
  rw [link, node_modify_of_ne hne, node_modify_self hp]

/-- The linked node gets its parent and keeps its children. -/
theorem node_link_self {d : Document} {p h : Handle} (hh : h < d.size) (hne : p ≠ h)
    (place : List Handle → List Handle) :
    (d.link p h place).node h = { d.node h with parent := some p } := by
  rw [link, node_modify_self (by rwa [size_modify]), node_modify_of_ne hne.symm]

/-- A link leaves all nodes but the two that it is between. -/
theorem node_link_of_ne {d : Document} {p h x : Handle} (hp : x ≠ p) (hh : x ≠ h)
    (place : List Handle → List Handle) : (d.link p h place).node x = d.node x := by
  rw [link, node_modify_of_ne hh, node_modify_of_ne hp]

@[simp] theorem size_detach (d : Document) (h : Handle) : (d.detach h).size = d.size := by
  unfold detach
  split
  · rfl
  · rw [size_modify, size_modify]

/-- A node without a parent is not there to be taken out. -/
theorem detach_eq_self {d : Document} {h : Handle} (hh : (d.node h).parent = none) :
    d.detach h = d := by
  rw [detach, parent?, hh]

/-- Taking out a node edits two records: its own and that of its parent. -/
theorem detach_eq {d : Document} {p h : Handle} (hh : (d.node h).parent = some p) :
    d.detach h = (d.modify h fun n => { n with parent := none }).modify p fun n =>
      { n with children := n.children.filter (· != h) } := by
  rw [detach, parent?, hh]

/-- The parent loses the handle, wherever it is among its children. -/
theorem node_detach_parent {d : Document} {p h : Handle} (hh : (d.node h).parent = some p)
    (hp : p < d.size) (hne : p ≠ h) :
    (d.detach h).node p = { d.node p with children := (d.node p).children.filter (· != h) } := by
  rw [detach_eq hh, node_modify_self (by rwa [size_modify]), node_modify_of_ne hne]

/-- Taking out a node leaves all nodes but it and its parent. -/
theorem node_detach_of_ne {d : Document} {p h x : Handle} (hh : (d.node h).parent = some p)
    (hxp : x ≠ p) (hxh : x ≠ h) : (d.detach h).node x = d.node x := by
  rw [detach_eq hh, node_modify_of_ne hxp, node_modify_of_ne hxh]

/-- A node without a parent is linked behind the last child. -/
theorem append_eq_link {d : Document} {h : Handle} (hh : (d.node h).parent = none) (p : Handle) :
    d.append p h = d.link p h (· ++ [h]) := by
  rw [append, detach_eq_self hh]

/-- A node without a parent is linked before a node that has one. -/
theorem insertBefore_eq_link {d : Document} {p reference h : Handle} (hne : reference ≠ h)
    (hh : (d.node h).parent = none) (hp : (d.node reference).parent = some p) :
    d.insertBefore reference h = d.link p h (placeBefore reference h) := by
  rw [insertBefore, if_neg hne, detach_eq_self hh]
  simp only [parent?, hp]

/-- The new handle comes to stand before the first occurrence of the reference. -/
theorem placeBefore_append {reference h : Handle} {before : List Handle}
    (hb : reference ∉ before) (behind : List Handle) :
    placeBefore reference h (before ++ reference :: behind) =
      before ++ h :: reference :: behind := by
  have hbefore : ∀ x ∈ before, (x != reference) = true := fun x hx => by
    rw [bne_iff_ne]
    rintro rfl
    exact hb hx
  rw [placeBefore, List.takeWhile_append_of_pos hbefore, List.dropWhile_append_of_pos hbefore,
    List.takeWhile_cons_of_neg (by simp), List.dropWhile_cons_of_neg (by simp), List.append_nil]

/-- Without a handle that occurs once, what stands before and behind it is left. -/
theorem filter_ne_append {h : Handle} {before behind : List Handle} (hb : h ∉ before)
    (hbehind : h ∉ behind) :
    (before ++ h :: behind).filter (· != h) = before ++ behind := by
  have hself : ∀ l : List Handle, h ∉ l → l.filter (· != h) = l := fun l hl =>
    List.filter_eq_self.2 fun x hx => by
      rw [bne_iff_ne]
      rintro rfl
      exact hl hx
  rw [List.filter_append, List.filter_cons_of_neg (by simp), hself before hb, hself behind hbehind]

/-- A shown tree is shown below another parent once its topmost node has that parent. -/
theorem Shows.reparent {d d' : Document} {parent parent' : Option Handle} {P : Placed}
    (h : d.Shows parent P) (hnodup : P.handles.Nodup) (hsize : d.size ≤ d'.size)
    (htop : d'.node P.handle = { d.node P.handle with parent := parent' })
    (hrest : ∀ x ∈ P.handles, x ≠ P.handle → d'.node x = d.node x) : d'.Shows parent' P := by
  obtain ⟨x, c, kids⟩ := P
  rw [Placed.handles, List.nodup_cons] at hnodup
  refine ⟨h.1.trans_le hsize, ?_, ShowsAll.frame h.2.2 hsize fun y hy => ?_⟩
  · rw [Placed.handle, h.2.1] at htop
    exact htop
  · refine hrest y (List.mem_cons_of_mem x hy) ?_
    rintro rfl
    exact hnodup.1 hy

/-! ### Copies -/

/-- Placed trees stand at the next handles of a document, in preorder. -/
structure Fresh (d d' : Document) (hs : List Handle) : Prop where
  handles : hs = List.range' d.size hs.length
  size : d'.size = d.size + hs.length

/-- Handles of new nodes are pairwise distinct. -/
theorem Fresh.nodup {d d' : Document} {hs : List Handle} (h : Fresh d d' hs) : hs.Nodup := by
  rw [h.handles]
  exact List.nodup_range'

/-- A new node stands behind all that were there. -/
theorem Fresh.le {d d' : Document} {hs : List Handle} (h : Fresh d d' hs) {x : Handle}
    (hx : x ∈ hs) : d.size ≤ x := by
  rw [h.handles, List.mem_range'_1] at hx
  exact hx.1

/-- A new node is one of the document that it has been added to. -/
theorem Fresh.lt {d d' : Document} {hs : List Handle} (h : Fresh d d' hs) {x : Handle}
    (hx : x ∈ hs) : x < d'.size := by
  rw [h.handles, List.mem_range'_1, ← h.size] at hx
  exact hx.2

/-- What has been added in two steps, one after another, has been added. -/
theorem Fresh.trans {d d' d'' : Document} {hs hs' : List Handle} (h : Fresh d d' hs)
    (h' : Fresh d' d'' hs') : Fresh d d'' (hs ++ hs') where
  handles := by
    have h'' := h'.handles
    rw [h.size] at h''
    rw [List.length_append, ← List.range'_append_1, ← h.handles, ← h'']
  size := by rw [h'.size, h.size, List.length_append, Nat.add_assoc]

/-- A new tree is put below a node. -/
theorem link_fresh {d e : Document} {p : Handle} {C : Placed} (hp : p < d.size)
    (hC : e.Shows none C) (hfresh : Fresh d e C.handles)
    (hframe : ∀ x < d.size, e.node x = d.node x) (place : List Handle → List Handle) :
    (e.link p C.handle place).size = e.size ∧
      (e.link p C.handle place).node p =
        { d.node p with children := place (d.node p).children } ∧
      (∀ x < d.size, x ≠ p → (e.link p C.handle place).node x = d.node x) ∧
      (e.link p C.handle place).Shows (some p) C := by
  have hpe : p < e.size := hfresh.size ▸ Nat.lt_add_right _ hp
  have hnew : ∀ x ∈ C.handles, x ≠ p := fun x hx => (hp.trans_le (hfresh.le hx)).ne'
  have hne : p ≠ C.handle := (hnew _ C.handle_mem).symm
  have hsize := size_link e p C.handle place
  refine ⟨hsize, ?_, fun x hx hxp => ?_, ?_⟩
  · rw [node_link_parent hpe hne, hframe p hp]
  · rw [node_link_of_ne hxp (hx.trans_le (hfresh.le C.handle_mem)).ne, hframe x hx]
  · exact hC.reparent hfresh.nodup hsize.ge (node_link_self (hC.lt _ C.handle_mem) hne place)
      fun x hx hxC => node_link_of_ne (hnew x hx) hxC place

/-- Trees are copied one by one, each behind the last child. -/
theorem adoptInto_cons (d : Document) (p : Handle) (t : Tree) (ts : List Tree) :
    d.adoptInto p (t :: ts) = ((d.adopt t).1.append p (d.adopt t).2).adoptInto p ts := by
  rw [adoptInto]

mutual
/-- **A copy of a tree stands at fresh handles, without a parent.** -/
theorem adopt_spec (d : Document) (t : Tree) : ∃ P : Placed, P.tree = t ∧
    (d.adopt t).2 = P.handle ∧ (d.adopt t).1.Shows none P ∧ Fresh d (d.adopt t).1 P.handles ∧
    ∀ x < d.size, (d.adopt t).1.node x = d.node x := by
  obtain ⟨c, kids⟩ := t
  have hh : d.size < (d.create c).1.size := by rw [size_create]; exact Nat.lt_succ_self _
  obtain ⟨Ps, rfl, hnode, hshows, hfresh, hframe⟩ :=
    adoptInto_spec (d.create c).1 d.size kids hh
  have hfresh' : Fresh d (d.create c).1 [d.size] := ⟨rfl, d.size_create c⟩
  rw [node_create_self, List.nil_append] at hnode
  refine ⟨.node d.size c Ps, rfl, rfl, ⟨?_, hnode, hshows⟩, hfresh'.trans hfresh, ?_⟩
  · exact hh.trans_le (hfresh.size ▸ Nat.le_add_right _ _)
  · intro x hx
    exact (hframe x (hx.trans hh) hx.ne).trans (node_create_of_lt hx c)

/-- **Copying trees below a node**, told for the row of them: they are shown as its new last
children, at fresh handles, and all other nodes are as they were. -/
theorem adoptInto_spec (d : Document) (p : Handle) (ts : List Tree) (hp : p < d.size) :
    ∃ Ps : List Placed, Placed.forest Ps = ts ∧
      (d.adoptInto p ts).node p =
        { d.node p with children := (d.node p).children ++ Ps.map Placed.handle } ∧
      (d.adoptInto p ts).ShowsAll (some p) Ps ∧
      Fresh d (d.adoptInto p ts) (Placed.allHandles Ps) ∧
      ∀ x < d.size, x ≠ p → (d.adoptInto p ts).node x = d.node x := by
  match ts with
  | [] => exact ⟨[], rfl, by simp [adoptInto], trivial, ⟨rfl, rfl⟩, fun x _ _ => rfl⟩
  | t :: ts =>
    obtain ⟨P, rfl, hhandle, hshows, hfresh, hframe⟩ := adopt_spec d t
    rw [adoptInto_cons, hhandle]
    generalize (d.adopt P.tree).1 = e at hshows hfresh hframe
    rw [append_eq_link hshows.parent_eq]
    obtain ⟨hsize, hplace, hrest, hbelow⟩ := link_fresh hp hshows hfresh hframe (· ++ [P.handle])
    have hde : d.size ≤ e.size := hfresh.size ▸ Nat.le_add_right _ _
    have hfresh' : Fresh d (e.link p P.handle (· ++ [P.handle])) P.handles :=
      ⟨hfresh.handles, hsize.trans hfresh.size⟩
    generalize e.link p P.handle (· ++ [P.handle]) = e' at hplace hbelow hrest hsize hfresh'
    obtain ⟨Ps, rfl, hnode, hshowsAll, hfreshAll, hframeAll⟩ :=
      adoptInto_spec e' p ts ((hp.trans_le hde).trans_eq hsize.symm)
    have hkept : ∀ x ∈ P.handles, (e'.adoptInto p (Placed.forest Ps)).node x = e'.node x :=
      fun x hx => hframeAll x (hbelow.lt x hx) (hp.trans_le (hfresh.le hx)).ne'
    refine ⟨P :: Ps, rfl, ?_, ⟨hbelow.frame ?_ hkept, hshowsAll⟩, hfresh'.trans hfreshAll, ?_⟩
    · rw [hnode, hplace, List.map_cons, List.append_assoc, List.singleton_append]
    · exact hfreshAll.size ▸ Nat.le_add_right _ _
    · intro x hx hxp
      exact (hframeAll x (hx.trans_le (hde.trans_eq hsize.symm)) hxp).trans (hrest x hx hxp)
end

/-- The document of some trees shows them below its root, at the handles behind it in preorder. -/
theorem ofForest_fresh (f : Forest) : ∃ Ps : List Placed, Placed.forest Ps = f ∧
    (ofForest f).Shows none (.node root .fragment Ps) ∧
    Fresh empty (ofForest f) (Placed.allHandles Ps) := by
  obtain ⟨Ps, hforest, hnode, hshows, hfresh, -⟩ :=
    adoptInto_spec empty root f (show 0 < 1 from Nat.one_pos)
  refine ⟨Ps, hforest, ⟨?_, hnode, hshows⟩, hfresh⟩
  exact (show 0 < 1 from Nat.one_pos).trans_le (hfresh.size ▸ Nat.le_add_right _ _)

/-- **The document of some trees shows them below its root.** -/
theorem ofForest_shows (f : Forest) : ∃ Ps : List Placed, Placed.forest Ps = f ∧
    (ofForest f).Shows none (.node root .fragment Ps) ∧
    (Placed.node root .fragment Ps).handles.Nodup := by
  obtain ⟨Ps, hforest, hshows, hfresh⟩ := ofForest_fresh f
  refine ⟨Ps, hforest, hshows, List.nodup_cons.2 ⟨fun hroot => ?_, hfresh.nodup⟩⟩
  exact absurd (hfresh.le hroot) (by decide)

/-- A document made from trees is read back as these trees. -/
theorem forest_ofForest (f : Forest) : (ofForest f).forest = f := by
  obtain ⟨Ps, rfl, hshows, hnodup⟩ := ofForest_shows f
  exact congrArg Tree.children (hshows.tree_eq hnodup)

/-- The trees at the top of a document made from trees, one by one. -/
theorem map_tree_ofForest (f : Forest) :
    ((ofForest f).children root).map (ofForest f).tree = f := by
  obtain ⟨Ps, rfl, ⟨-, hnode, hshows⟩, hnodup⟩ := ofForest_shows f
  rw [children, hnode]
  exact hshows.map_tree_eq (List.nodup_cons.1 hnodup).2

/-- Parsing to a document is parsing to trees, and a document made from them. -/
theorem parse_eq_ok_iff {source : String} {d : Document} :
    parse source = .ok d ↔ ∃ f, Markup.parse source = .ok f ∧ ofForest f = d := by
  rw [parse]
  rcases Markup.parse source with fault | f <;> simp [Except.map]

end Document
end Markup
end HtmlCompose
