/-
# Walks down and up a well-formed document

A document is walked down its lists of children and up its parents, each within as many
steps as there are nodes.  That bound is never felt: the way up from a node to the first
meeting with another one passes different nodes (`isWithin_iff_below`), and in a
well-formed document the way down from a node ends, because each step down adds a node to
those above (`WellFormed.exists_shows`).

So every node of a well-formed document tops a placed tree that the document shows, and a
walk down from it lists the handles of that tree in preorder (`Shows.descendants_eq`).
Two nodes of which neither lies below the other have nothing in common below them
(`apart_of_not_below`).

Each node of a shown tree stands for a subtree, with the contents of the subtrees directly
below it as the contents of its children (`Shows.exists_subtree`).
-/
import HtmlCompose.Proofs.Markup.Links

namespace HtmlCompose
namespace Markup

namespace Placed

/-- The trees below the topmost node. -/
def children : Placed → List Placed
  | node _ _ kids => kids

/-- The nodes of a tree are its topmost one and those below. -/
theorem handles_eq (P : Placed) : P.handles = P.handle :: allHandles P.children := by
  cases P
  rfl

/-- The topmost nodes of a row are among its nodes, in order. -/
theorem map_handle_sublist (Ps : List Placed) : (Ps.map handle).Sublist (allHandles Ps) := by
  induction Ps with
  | nil => exact .refl _
  | cons P Ps ih =>
    rw [List.map_cons, allHandles, P.handles_eq, List.cons_append]
    exact (ih.trans (List.sublist_append_right _ _)).cons_cons P.handle

/-- The nodes of a tree of a row are among those of the row. -/
theorem handles_subset {P : Placed} {Ps : List Placed} (hP : P ∈ Ps) :
    P.handles ⊆ allHandles Ps := by
  obtain ⟨As, Bs, rfl⟩ := List.append_of_mem hP
  rw [allHandles_append, allHandles]
  exact List.subset_append_of_subset_right _ (List.subset_append_left _ _)

end Placed

namespace Document

variable {d : Document} {p a b x : Handle}

/-! ### Up -/

/-- Being below is transitive. -/
theorem Below.trans (hx : d.Below x a) (ha : d.Below a b) : d.Below x b := by
  induction hx with
  | child hp => exact .up hp ha
  | up hp _ ih => exact .up hp (ih ha)

/-- Of two nodes above a node, one is above the other. -/
theorem Below.linear (ha : d.Below x a) (hb : d.Below x b) :
    a = b ∨ d.Below a b ∨ d.Below b a := by
  induction ha with
  | child hp => exact ((below_of_parent hp).1 hb).imp_right .inl
  | up hp ha ih =>
    rcases (below_of_parent hp).1 hb with rfl | hb
    · exact .inr (.inr ha)
    · exact ih hb

/-- One step of the bounded ascent. -/
theorem isWithinSteps_succ (a : Handle) (n : Nat) (hp : d.parent? x = some p) :
    d.isWithinSteps a (n + 1) x = (p == a || d.isWithinSteps a n p) := by
  rw [isWithinSteps, hp]

/-- What the bounded ascent finds above a node is above it. -/
theorem below_of_isWithinSteps {n : Nat} (hx : d.isWithinSteps a n x = true) : d.Below x a := by
  induction n generalizing x with
  | zero => cases hx
  | succ n ih =>
    rcases hp : d.parent? x with _ | p
    · rw [isWithinSteps, hp] at hx
      cases hx
    · rw [isWithinSteps_succ a n hp, Bool.or_eq_true, beq_iff_eq] at hx
      rcases hx with rfl | hx
      · exact .child hp
      · exact .up hp (ih hx)

/-- With more fuel the ascent finds no less. -/
theorem isWithinSteps_mono {n m : Nat} (hnm : n ≤ m) (hx : d.isWithinSteps a n x = true) :
    d.isWithinSteps a m x = true := by
  induction n generalizing x m with
  | zero => cases hx
  | succ n ih =>
    obtain ⟨m, rfl⟩ : ∃ k, m = k + 1 := ⟨m - 1, by omega⟩
    rcases hp : d.parent? x with _ | p
    · rw [isWithinSteps, hp] at hx
      cases hx
    · rw [isWithinSteps_succ a _ hp, Bool.or_eq_true] at hx ⊢
      exact hx.imp_right (ih (Nat.le_of_succ_le_succ hnm))

/-- With enough fuel the ascent finds every node above. -/
theorem Below.exists_isWithinSteps (hx : d.Below x a) : ∃ n, d.isWithinSteps a n x = true := by
  induction hx with
  | child hp => exact ⟨1, (isWithinSteps_succ _ 0 hp).trans (by rw [BEq.rfl, Bool.true_or])⟩
  | up hp _ ih =>
    obtain ⟨n, hn⟩ := ih
    exact ⟨n + 1, by rw [isWithinSteps_succ _ n hp, hn, Bool.or_true]⟩

/-- The shortest way up passes different nodes: the later ones are nearer to its end. -/
theorem exists_path {n : Nat} (hx : d.isWithinSteps a n x = true)
    (hleast : ∀ m < n, d.isWithinSteps a m x = false) :
    ∃ l : List Handle, l.length = n ∧ l.Nodup ∧
      ∀ y ∈ l, y < d.size ∧ d.isWithinSteps a n y = true := by
  induction n generalizing x with
  | zero => cases hx
  | succ n ih =>
    rcases hp : d.parent? x with _ | p
    · rw [isWithinSteps, hp] at hx
      cases hx
    have hlt : x < d.size := lt_of_parent hp
    by_cases hpa : p = a
    · have hone : d.isWithinSteps a 1 x = true := by
        rw [isWithinSteps_succ a 0 hp, hpa, BEq.rfl, Bool.true_or]
      obtain rfl : n = 0 := by
        refine Nat.eq_zero_of_not_pos fun hn => ?_
        exact Bool.false_ne_true ((hleast 1 (by omega)).symm.trans hone)
      exact ⟨[x], rfl, List.nodup_singleton x, by simpa using ⟨hlt, hone⟩⟩
    · have hstep : ∀ m, d.isWithinSteps a (m + 1) x = d.isWithinSteps a m p := fun m => by
        rw [isWithinSteps_succ a m hp, beq_false_of_ne hpa, Bool.false_or]
      obtain ⟨l, hlength, hnodup, hl⟩ := ih ((hstep n).symm.trans hx) fun m hm =>
        (hstep m).symm.trans (hleast (m + 1) (Nat.succ_lt_succ hm))
      refine ⟨x :: l, congrArg Nat.succ hlength, List.nodup_cons.2 ⟨fun hmem => ?_, hnodup⟩, ?_⟩
      · exact Bool.false_ne_true ((hleast n n.lt_succ_self).symm.trans (hl x hmem).2)
      · rw [List.forall_mem_cons]
        exact ⟨⟨hlt, hx⟩, fun y hy => ⟨(hl y hy).1, isWithinSteps_mono n.le_succ (hl y hy).2⟩⟩

/-- **A walk up meets every node above.** -/
theorem isWithin_iff_below : d.isWithin x a = true ↔ d.Below x a := by
  refine ⟨below_of_isWithinSteps, fun hx => ?_⟩
  have hex := hx.exists_isWithinSteps
  obtain ⟨l, hlength, hnodup, hl⟩ := exists_path (Nat.find_spec hex) fun m hm =>
    Bool.eq_false_iff.2 (Nat.find_min hex hm)
  refine isWithinSteps_mono ?_ (Nat.find_spec hex)
  rw [← hlength]
  exact length_le_of_nodup hnodup fun y hy => (hl y hy).1

/-! ### Down -/

mutual
/-- With fuel for its nodes, the descendants of a shown tree are the nodes below it. -/
theorem Shows.descendantsWithin_eq {parent : Option Handle} {P : Placed} (hP : d.Shows parent P)
    {n : Nat} (hn : (Placed.allHandles P.children).length ≤ n) :
    d.descendantsWithin n P.handle = Placed.allHandles P.children := by
  obtain ⟨y, c, kids⟩ := P
  have hchildren : d.children y = kids.map Placed.handle := congrArg Node.children hP.2.1
  cases n with
  | zero => exact (List.eq_nil_of_length_eq_zero (Nat.le_zero.1 hn)).symm
  | succ n =>
    rw [descendantsWithin, Placed.handle, hchildren]
    exact ShowsAll.descendantsWithin_eq hP.2.2 hn

/-- With fuel for its nodes, a shown row with its descendants is the list of its nodes. -/
theorem ShowsAll.descendantsWithin_eq {parent : Option Handle} {Ps : List Placed}
    (hPs : d.ShowsAll parent Ps) {n : Nat} (hn : (Placed.allHandles Ps).length ≤ n + 1) :
    (Ps.map Placed.handle).flatMap (fun c => c :: d.descendantsWithin n c) =
      Placed.allHandles Ps := by
  match Ps with
  | [] => rfl
  | P :: Ps =>
    rw [Placed.allHandles, P.handles_eq, List.length_append, List.length_cons] at hn
    rw [List.map_cons, List.flatMap_cons, Shows.descendantsWithin_eq hPs.1 (by omega),
      ShowsAll.descendantsWithin_eq hPs.2 (by omega), Placed.allHandles, P.handles_eq]
end

/-- **A walk down lists the handles of the tree that is shown.** -/
theorem Shows.descendants_eq {parent : Option Handle} {P : Placed} (hP : d.Shows parent P)
    (hnodup : P.handles.Nodup) : d.descendants P.handle = Placed.allHandles P.children := by
  have hlength := length_le_of_nodup hnodup hP.lt
  rw [P.handles_eq, List.length_cons] at hlength
  exact hP.descendantsWithin_eq (by omega)

mutual
/-- A shown tree has its topmost node, and every other node below one of its nodes. -/
theorem Shows.parent_mem {d : Document} {parent : Option Handle} {P : Placed} {x : Handle}
    (hP : d.Shows parent P) (hx : x ∈ P.handles) :
    x = P.handle ∨ ∃ y ∈ P.handles, d.parent? x = some y := by
  obtain ⟨y, c, kids⟩ := P
  rw [Placed.handles, List.mem_cons] at hx
  refine hx.imp_right fun hx => ?_
  obtain ⟨z, hz, hparent⟩ := ShowsAll.parent_mem hP.2.2 hx
  rcases hz with rfl | hz
  · exact ⟨z, List.mem_cons_self, hparent⟩
  · exact ⟨z, List.mem_cons_of_mem y hz, hparent⟩

/-- The parent of a node of a row is the row's parent or another node of the row. -/
theorem ShowsAll.parent_mem {d : Document} {p : Handle} {Ps : List Placed} {x : Handle}
    (hPs : d.ShowsAll (some p) Ps) (hx : x ∈ Placed.allHandles Ps) :
    ∃ y, (y = p ∨ y ∈ Placed.allHandles Ps) ∧ d.parent? x = some y := by
  match Ps with
  | [] => exact absurd hx List.not_mem_nil
  | P :: Ps =>
    rw [Placed.allHandles, List.mem_append] at hx
    rw [Placed.allHandles]
    rcases hx with hx | hx
    · rcases Shows.parent_mem hPs.1 hx with rfl | ⟨y, hy, hparent⟩
      · exact ⟨p, .inl rfl, Shows.parent_eq hPs.1⟩
      · exact ⟨y, .inr (List.mem_append_left _ hy), hparent⟩
    · obtain ⟨y, hy, hparent⟩ := ShowsAll.parent_mem hPs.2 hx
      exact ⟨y, hy.imp_right (List.mem_append_right _), hparent⟩
end

/-- All that is above a node of a tree without a parent is in that tree. -/
theorem Shows.mem_of_below {P : Placed} (hP : d.Shows none P) (hbelow : d.Below x a)
    (hx : x ∈ P.handles) : a ∈ P.handles := by
  have hstep : ∀ {x q : Handle}, x ∈ P.handles → d.parent? x = some q → q ∈ P.handles := by
    intro x q hx hq
    rcases hP.parent_mem hx with rfl | ⟨y, hy, hparent⟩
    · cases hP.parent_eq.symm.trans hq
    · exact Option.some.inj (hparent.symm.trans hq) ▸ hy
  induction hbelow with
  | child hp => exact hstep hx hp
  | up hp _ ih => exact ih (hstep hx hp)

mutual
/-- The nodes of a shown tree lie below its parent. -/
theorem Shows.below {d : Document} {p x : Handle} {P : Placed} (hP : d.Shows (some p) P)
    (hx : x ∈ P.handles) : d.Below x p := by
  obtain ⟨y, c, kids⟩ := P
  have hparent : d.parent? y = some p := congrArg Node.parent hP.2.1
  rw [Placed.handles, List.mem_cons] at hx
  rcases hx with rfl | hx
  · exact .child hparent
  · exact (ShowsAll.below hP.2.2 hx).trans (.child hparent)

/-- All nodes of a row are below its parent. -/
theorem ShowsAll.below {d : Document} {p x : Handle} {Ps : List Placed}
    (hPs : d.ShowsAll (some p) Ps) (hx : x ∈ Placed.allHandles Ps) : d.Below x p := by
  match Ps with
  | [] => exact absurd hx List.not_mem_nil
  | P :: Ps =>
    rw [Placed.allHandles, List.mem_append] at hx
    exact hx.elim (Shows.below hPs.1) (ShowsAll.below hPs.2)
end

/-- A node of a shown tree is its topmost node or lies below it. -/
theorem Shows.eq_or_below {parent : Option Handle} {P : Placed} (hP : d.Shows parent P)
    (hx : x ∈ P.handles) : x = P.handle ∨ d.Below x P.handle := by
  obtain ⟨y, c, kids⟩ := P
  rw [Placed.handles, List.mem_cons] at hx
  exact hx.imp_right (ShowsAll.below hP.2.2)

/-- A tree of a shown row is shown. -/
theorem ShowsAll.of_mem {parent : Option Handle} {P : Placed} {Ps : List Placed}
    (hPs : d.ShowsAll parent Ps) (hP : P ∈ Ps) : d.Shows parent P := by
  obtain ⟨As, Bs, rfl⟩ := List.append_of_mem hP
  exact ((d.showsAll_append _ _ _).1 hPs).2.1

/-- The topmost nodes of a row have the row's parent. -/
theorem ShowsAll.parent_of_mem {parent : Option Handle} {Ps : List Placed}
    (hPs : d.ShowsAll parent Ps) (hx : x ∈ Ps.map Placed.handle) : d.parent? x = parent := by
  obtain ⟨P, hP, rfl⟩ := List.mem_map.1 hx
  exact (hPs.of_mem hP).parent_eq

/-- A node of a row is in one of its trees. -/
theorem ShowsAll.exists_of_mem {parent : Option Handle} {Ps : List Placed}
    (hPs : d.ShowsAll parent Ps) (hx : x ∈ Placed.allHandles Ps) :
    ∃ P ∈ Ps, d.Shows parent P ∧ x ∈ P.handles := by
  induction Ps with
  | nil => exact absurd hx List.not_mem_nil
  | cons P Ps ih =>
    rw [Placed.allHandles, List.mem_append] at hx
    rcases hx with hx | hx
    · exact ⟨P, List.mem_cons_self, hPs.1, hx⟩
    · obtain ⟨Q, hQ, hshows, hxQ⟩ := ih hPs.2 hx
      exact ⟨Q, List.mem_cons_of_mem P hQ, hshows, hxQ⟩

mutual
/-- A shown tree has all children of its nodes. -/
theorem Shows.mem_of_child {d : Document} {parent : Option Handle} {P : Placed} {x y : Handle}
    (hP : d.Shows parent P) (hy : y ∈ P.handles) (hx : x ∈ d.children y) :
    x ∈ Placed.allHandles P.children := by
  obtain ⟨z, c, kids⟩ := P
  have hchildren : d.children z = kids.map Placed.handle := congrArg Node.children hP.2.1
  rw [Placed.handles, List.mem_cons] at hy
  rcases hy with rfl | hy
  · exact Placed.map_handle_subset kids (hchildren ▸ hx)
  · exact ShowsAll.mem_of_child hP.2.2 hy hx

/-- A row has all the children of its nodes. -/
theorem ShowsAll.mem_of_child {d : Document} {parent : Option Handle} {Ps : List Placed}
    {x y : Handle} (hPs : d.ShowsAll parent Ps) (hy : y ∈ Placed.allHandles Ps)
    (hx : x ∈ d.children y) : x ∈ Placed.allHandles Ps := by
  match Ps with
  | [] => exact absurd hy List.not_mem_nil
  | P :: Ps =>
    rw [Placed.allHandles, List.mem_append] at hy ⊢
    rcases hy with hy | hy
    · have hmem := Shows.mem_of_child hPs.1 hy hx
      exact .inl (P.handles_eq ▸ List.mem_cons_of_mem _ hmem)
    · exact .inr (ShowsAll.mem_of_child hPs.2 hy hx)
end

/-! ### Nodes and subtrees -/

mutual
/-- The contents of a tree's nodes are those of its subtrees, in the same order. -/
theorem Shows.map_content {d : Document} {parent : Option Handle} {P : Placed}
    (hP : d.Shows parent P) : P.tree.preorder.map (·.content) = P.handles.map d.content := by
  obtain ⟨x, c, kids⟩ := P
  have hc : d.content x = c := congrArg Node.content hP.2.1
  rw [Placed.tree, Tree.preorder, Placed.handles, List.map_cons, List.map_cons,
    ShowsAll.map_content hP.2.2, hc]
  rfl

/-- **The trees have the contents of the handles, in the same order.** -/
theorem ShowsAll.map_content {d : Document} {parent : Option Handle} {Ps : List Placed}
    (hPs : d.ShowsAll parent Ps) :
    (Forest.preorder (Placed.forest Ps)).map (·.content) = (Placed.allHandles Ps).map d.content := by
  match Ps with
  | [] => rfl
  | P :: Ps =>
    rw [Placed.forest, Forest.preorder, Placed.allHandles, List.map_append, List.map_append,
      Shows.map_content hPs.1, ShowsAll.map_content hPs.2]
end

/-- The topmost nodes of shown trees have the contents of the trees. -/
theorem ShowsAll.map_content_handle {parent : Option Handle} {Ps : List Placed}
    (hPs : d.ShowsAll parent Ps) :
    (Ps.map Placed.handle).map d.content = (Placed.forest Ps).map Tree.content := by
  induction Ps with
  | nil => rfl
  | cons P Ps ih =>
    obtain ⟨x, c, kids⟩ := P
    have hcontent : d.content x = c := congrArg Node.content hPs.1.2.1
    rw [List.map_cons, List.map_cons, ih hPs.2, Placed.handle, hcontent]
    rfl

mutual
/-- Each node of a shown tree stands for a subtree. -/
theorem Shows.exists_subtree {d : Document} {parent : Option Handle} {P : Placed} {x : Handle}
    (hP : d.Shows parent P) (hx : x ∈ P.handles) : ∃ u ∈ P.tree.preorder,
      d.content x = u.content ∧ (d.children x).map d.content = u.children.map Tree.content := by
  obtain ⟨y, c, kids⟩ := P
  rw [Placed.tree, Tree.preorder]
  rw [Placed.handles, List.mem_cons] at hx
  rcases hx with rfl | hx
  · have hchildren : d.children x = kids.map Placed.handle := congrArg Node.children hP.2.1
    refine ⟨_, List.mem_cons_self, congrArg Node.content hP.2.1, ?_⟩
    rw [hchildren, hP.2.2.map_content_handle]
    rfl
  · obtain ⟨u, hu, hnode⟩ := ShowsAll.exists_subtree hP.2.2 hx
    exact ⟨u, List.mem_cons_of_mem _ hu, hnode⟩

/-- Every node of a shown row is the top of a subtree, with the same content and children. -/
theorem ShowsAll.exists_subtree {d : Document} {parent : Option Handle} {Ps : List Placed}
    {x : Handle} (hPs : d.ShowsAll parent Ps) (hx : x ∈ Placed.allHandles Ps) :
    ∃ u ∈ Forest.preorder (Placed.forest Ps),
      d.content x = u.content ∧ (d.children x).map d.content = u.children.map Tree.content := by
  match Ps with
  | [] => exact absurd hx List.not_mem_nil
  | P :: Ps =>
    rw [Placed.forest, Forest.preorder]
    rw [Placed.allHandles, List.mem_append] at hx
    rcases hx with hx | hx
    · obtain ⟨u, hu, hnode⟩ := Shows.exists_subtree hPs.1 hx
      exact ⟨u, List.mem_append_left _ hu, hnode⟩
    · obtain ⟨u, hu, hnode⟩ := ShowsAll.exists_subtree hPs.2 hx
      exact ⟨u, List.mem_append_right _ hu, hnode⟩
end

/-- **The nodes below the root are numbered in preorder.** -/
theorem descendants_ofForest (f : Forest) :
    (ofForest f).descendants root = List.range' 1 ((ofForest f).size - 1) := by
  obtain ⟨Ps, -, hshows, hfresh⟩ := ofForest_fresh f
  have hroot : root ∉ Placed.allHandles Ps := fun h => absurd (hfresh.le h) (by decide)
  have hdescendants := hshows.descendants_eq (List.nodup_cons.2 ⟨hroot, hfresh.nodup⟩)
  have hlength : (ofForest f).size - 1 = (Placed.allHandles Ps).length := by
    rw [hfresh.size]
    exact Nat.add_sub_cancel_left ..
  rw [hlength]
  exact hdescendants.trans hfresh.handles

/-- A walk down the document of some trees meets their contents in the same order. -/
theorem map_content_descendants (f : Forest) :
    ((ofForest f).descendants root).map (ofForest f).content =
      (Forest.preorder f).map (·.content) := by
  obtain ⟨Ps, rfl, hshows, hnodup⟩ := ofForest_shows f
  rw [hshows.2.2.map_content]
  exact congrArg _ (hshows.descendants_eq hnodup)

/-! ### Well-formed documents -/

/-- Below two nodes of which neither lies below the other there is no common node. -/
theorem apart_of_not_below (hne : a ≠ b) (hab : ¬d.Below a b) (hba : ¬d.Below b a)
    (ha : x = a ∨ d.Below x a) : ¬(x = b ∨ d.Below x b) := by
  rintro (rfl | hb)
  · exact ha.elim (fun heq => hne heq.symm) hba
  · rcases ha with rfl | ha
    · exact hab hb
    · rcases ha.linear hb with heq | hab' | hba'
      exacts [hne heq, hab hab', hba hba']

namespace WellFormed

/-- No node lies below another child of its parent. -/
theorem not_below_sibling (hd : d.WellFormed) (ha : d.parent? a = some p)
    (hb : d.parent? b = some p) : ¬d.Below a b := by
  intro hab
  refine (hd.ends p).not_below_self ?_
  rcases (below_of_parent ha).1 hab with rfl | hpb
  · exact .child hb
  · exact hpb.trans_child hb

mutual
/-- The nodes of a shown tree are different. -/
theorem nodup_of_shows {d : Document} (hd : d.WellFormed) {parent : Option Handle} {P : Placed}
    (hP : d.Shows parent P) : P.handles.Nodup := by
  obtain ⟨y, c, kids⟩ := P
  have hchildren : d.children y = kids.map Placed.handle := congrArg Node.children hP.2.1
  refine List.nodup_cons.2 ⟨fun hmem => ?_, nodup_of_showsAll hd hP.2.2 (hchildren ▸ hd.nodup y)⟩
  exact (hd.ends y).not_below_self (hP.2.2.below hmem)

/-- In a well-formed document no node of a row occurs twice. -/
theorem nodup_of_showsAll {d : Document} (hd : d.WellFormed) {p : Handle} {Ps : List Placed}
    (hPs : d.ShowsAll (some p) Ps) (hnodup : (Ps.map Placed.handle).Nodup) :
    (Placed.allHandles Ps).Nodup := by
  match Ps with
  | [] => exact List.nodup_nil
  | P :: Ps =>
    rw [List.map_cons, List.nodup_cons] at hnodup
    rw [Placed.allHandles, List.nodup_append']
    refine ⟨nodup_of_shows hd hPs.1, nodup_of_showsAll hd hPs.2 hnodup.2, fun x hx hxs => ?_⟩
    obtain ⟨Q, hQ, hshows, hxQ⟩ := hPs.2.exists_of_mem hxs
    refine apart_of_not_below (fun heq => hnodup.1 (List.mem_map.2 ⟨Q, hQ, heq.symm⟩)) ?_ ?_
      (hPs.1.eq_or_below hx) (hshows.eq_or_below hxQ)
    · exact hd.not_below_sibling hPs.1.parent_eq hshows.parent_eq
    · exact hd.not_below_sibling hshows.parent_eq hPs.1.parent_eq
end

/-- The nodes above a node. -/
def above (d : Document) (h : Handle) : Finset Handle :=
  (Finset.range d.size).filter fun a => d.isWithin h a = true

/-- A child has one node more above it: its parent. -/
theorem above_child (hd : d.WellFormed) {c : Handle} (hc : d.parent? c = some p) :
    (above d p).card < (above d c).card := by
  refine Finset.card_lt_card (Finset.ssubset_iff.2 ⟨p, ?_, Finset.insert_subset ?_ fun a ha => ?_⟩)
  · rw [above, Finset.mem_filter, isWithin_iff_below]
    exact fun h => (hd.ends p).not_below_self h.2
  · rw [above, Finset.mem_filter, Finset.mem_range, isWithin_iff_below]
    exact ⟨hd.parent_lt hc, .child hc⟩
  · rw [above, Finset.mem_filter, isWithin_iff_below] at ha ⊢
    exact ⟨ha.1, .up hc ha.2⟩

/-- **Every node tops a tree that the document shows.** -/
theorem exists_shows (hd : d.WellFormed) {h : Handle} (hh : h < d.size) :
    ∃ P : Placed, P.handle = h ∧ d.Shows (d.parent? h) P := by
  -- the nodes that are not above `h` get fewer on the way down
  induction hn : d.size - (above d h).card using Nat.strong_induction_on generalizing h with
  | _ n ih =>
    have hkid : ∀ c ∈ d.children h, ∃ P : Placed, P.handle = c ∧ d.Shows (some h) P := by
      intro c hc
      have hparent := (hd.linked h c).1 hc
      have hcard : (above d c).card ≤ d.size :=
        (Finset.card_filter_le _ _).trans (Finset.card_range _).le
      have hless := hd.above_child hparent
      obtain ⟨P, hP, hshows⟩ := ih _ (by omega) (hd.child_lt hc) rfl
      exact ⟨P, hP, hparent ▸ hshows⟩
    have hkids : ∀ hs : List Handle, (∀ c ∈ hs, c ∈ d.children h) →
        ∃ Ps : List Placed, Ps.map Placed.handle = hs ∧ d.ShowsAll (some h) Ps := by
      intro hs
      induction hs with
      | nil => exact fun _ => ⟨[], rfl, trivial⟩
      | cons c hs ihs =>
        intro hmem
        obtain ⟨hc, hrest⟩ := List.forall_mem_cons.1 hmem
        obtain ⟨P, rfl, hP⟩ := hkid c hc
        obtain ⟨Ps, rfl, hPs⟩ := ihs hrest
        exact ⟨P :: Ps, rfl, hP, hPs⟩
    obtain ⟨Ps, hPs, hshows⟩ := hkids (d.children h) fun _ hc => hc
    exact ⟨.node h (d.content h) Ps, rfl, hh, by rw [hPs]; rfl, hshows⟩

/-- **What lies below a node is what is shown below it.** -/
theorem mem_iff_below (hd : d.WellFormed) {parent : Option Handle} {P : Placed}
    (hP : d.Shows parent P) : x ∈ Placed.allHandles P.children ↔ d.Below x P.handle := by
  refine ⟨fun hx => ?_, fun hx => ?_⟩
  · obtain ⟨y, c, kids⟩ := P
    exact ShowsAll.below hP.2.2 hx
  · have hmem : x ∈ P.handles ∧ x ∈ Placed.allHandles P.children := by
      generalize htop : P.handle = a at hx
      induction hx with
      | child hp =>
        subst htop
        have hx := hP.mem_of_child P.handle_mem ((hd.linked _ _).2 hp)
        exact ⟨P.handles_eq ▸ List.mem_cons_of_mem _ hx, hx⟩
      | up hp _ ih =>
        have hx := hP.mem_of_child (ih htop).1 ((hd.linked _ _).2 hp)
        exact ⟨P.handles_eq ▸ List.mem_cons_of_mem _ hx, hx⟩
    exact hmem.2

/-- **A walk down lists what lies below a node.** -/
theorem mem_descendants_iff (hd : d.WellFormed) {h : Handle} (hh : h < d.size) :
    x ∈ d.descendants h ↔ d.isWithin x h = true := by
  obtain ⟨P, rfl, hP⟩ := hd.exists_shows hh
  rw [hP.descendants_eq (hd.nodup_of_shows hP), hd.mem_iff_below hP, isWithin_iff_below]

end WellFormed
end Document
end Markup
end HtmlCompose
