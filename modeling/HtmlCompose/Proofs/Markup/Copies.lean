/-
# Copies stand apart

A node is copied into a document that grows while it is read, or into another one.  Either way
each copied node is looked up when its turn comes.  It is still what it was at the start, because
growing leaves the old nodes as they are (`Extends`): a new node is created behind them, and only
new nodes are linked, to new nodes.  So the copy made node by node is the copy of the tree that was
shown at the start (`copyNode_eq`), and a walk of as many levels as there are nodes is deep enough.

What is known of copies of trees then says all of the new nodes (`copied_adopt`): together they are
the tree that was copied, and nothing else is touched.
-/
import HtmlCompose.Markup.Traversal
import HtmlCompose.Proofs.Markup.Traversal

namespace HtmlCompose
namespace Markup
namespace Document

/-- A document has the nodes of another one as they are there, and perhaps more. -/
structure Extends (d e : Document) : Prop where
  size : d.size ≤ e.size
  node : ∀ x < d.size, e.node x = d.node x

namespace Extends

variable {d e e' : Document}

/-- A document extends itself. -/
theorem refl (d : Document) : Extends d d := ⟨Nat.le_refl _, fun _ _ => rfl⟩

/-- Extensions follow one another. -/
theorem trans (h : Extends d e) (h' : Extends e e') : Extends d e' where
  size := h.size.trans h'.size
  node x hx := (h'.node x (hx.trans_le h.size)).trans (h.node x hx)

/-- Creating a node extends a document. -/
theorem create (d : Document) (c : Content) : Extends d (d.create c).1 where
  size := by
    rw [size_create]
    exact Nat.le_succ _
  node _ hx := node_create_of_lt hx c

/-- Adopting a tree extends a document. -/
theorem adopt (d : Document) (t : Tree) : Extends d (d.adopt t).1 := by
  obtain ⟨P, -, -, -, hfresh, hframe⟩ := d.adopt_spec t
  exact ⟨hfresh.size ▸ Nat.le_add_right _ _, hframe⟩

/-- A copy that is put below a new node leaves the old nodes as they are. -/
theorem append_adopt (h : Extends d e) {p : Handle} (hp : d.size ≤ p) (t : Tree) :
    Extends d ((e.adopt t).1.append p (e.adopt t).2) := by
  obtain ⟨P, -, hhandle, hshows, hfresh, -⟩ := e.adopt_spec t
  have hnew : d.size ≤ P.handle := h.size.trans (hfresh.le P.handle_mem)
  have hgrown := h.trans (Extends.adopt e t)
  rw [hhandle, append_eq_link hshows.parent_eq]
  refine ⟨by rw [size_link]; exact hgrown.size, fun x hx => ?_⟩
  rw [node_link_of_ne (hx.trans_le hp).ne (hx.trans_le hnew).ne, hgrown.node x hx]

end Extends

/-- What a document shows is shown by its extensions. -/
theorem Shows.of_extends {d e : Document} {parent : Option Handle} {P : Placed}
    (hP : d.Shows parent P) (h : Extends d e) : e.Shows parent P :=
  hP.frame h.size fun x hx => h.node x (hP.lt x hx)

/-! ### Copying node by node -/

section Copying

variable {view : Document → Document}

mutual
/-- **A copy made node by node is the copy of the tree**, if all documents that grow out of the
first one show the tree to the copying. -/
theorem copyNode_eq {d₀ d : Document} {parent : Option Handle} {P : Placed}
    (hP : ∀ e, Extends d₀ e → (view e).Shows parent P) {n : Nat} (hn : P.handles.length ≤ n)
    (hd : Extends d₀ d) : copyNode view n d P.handle = some (d.adopt P.tree) := by
  obtain ⟨h, c, kids⟩ := P
  rw [Placed.handles, List.length_cons] at hn
  obtain ⟨n, rfl⟩ : ∃ m, n = m + 1 := ⟨n - 1, by omega⟩
  have hd' : Extends d₀ (d.create c).1 := hd.trans (.create d c)
  have hcontent : (view d).content h = c := congrArg Node.content (hP d hd).2.1
  have hchildren : (view (d.create c).1).children h = kids.map Placed.handle :=
    congrArg Node.children (hP _ hd').2.1
  have hkids := copyAll_eq (p := d.size) (fun e he => (hP e he).2.2) (n := n) (by omega) hd' hd.size
  rw [Placed.handle, copyNode, hcontent, Placed.tree, Document.adopt]
  dsimp only
  rw [hchildren, show (d.create c).2 = d.size from rfl, hkids, Option.map_some]

/-- With fuel for all nodes, copying the children of a new node adopts the trees that are shown. -/
theorem copyAll_eq {d₀ d : Document} {p : Handle} {parent : Option Handle} {Ps : List Placed}
    (hPs : ∀ e, Extends d₀ e → (view e).ShowsAll parent Ps) {n : Nat}
    (hn : (Placed.allHandles Ps).length ≤ n) (hd : Extends d₀ d) (hp : d₀.size ≤ p) :
    (Ps.map Placed.handle).foldlM
      (fun d child => (copyNode view n d child).map fun made => made.1.append p made.2) d =
        some (d.adoptInto p (Placed.forest Ps)) := by
  match Ps with
  | [] =>
    rw [Placed.forest, adoptInto]
    rfl
  | P :: Ps =>
    rw [Placed.allHandles, List.length_append] at hn
    rw [List.map_cons, List.foldlM_cons, copyNode_eq (fun e he => (hPs e he).1) (by omega) hd,
      Placed.forest, adoptInto_cons]
    exact copyAll_eq (fun e he => (hPs e he).2) (by omega) (hd.append_adopt hp P.tree) hp
end

end Copying

/-! ### What a copy is -/

/-- A node of one document has been copied to a node of another one, and nothing else has
happened. -/
structure Copied (s : Document) (h : Handle) (d d' : Document) (c : Handle) : Prop where
  top : d'.parent? c = none
  tree : d'.tree c = s.tree h
  /-- neither tree is cut off -/
  unfolds : s.Unfolds [h] [s.tree h] ∧ d'.Unfolds [c] [s.tree h]
  /-- both are written as the same text -/
  markup : ∃ text, (∀ n, s.size ≤ n → (s.writeNode n {} h).map (·.markup) = some text) ∧
    ∀ n, d'.size ≤ n → (d'.writeNode n {} c).map (·.markup) = some text
  /-- the new nodes are those of the copy -/
  made : ∀ x, x = c ∨ d'.Below x c ↔ d.size ≤ x ∧ x < d'.size
  kept : ∀ x < d.size, d'.content x = d.content x ∧ d'.parent? x = d.parent? x ∧
    d'.children x = d.children x
  wellFormed : d'.WellFormed

/-- A shown tree is what its node unfolds to. -/
theorem Shows.unfolds_tree {d : Document} {parent : Option Handle} {P : Placed}
    (hP : d.Shows parent P) : d.Unfolds [P.handle] [P.tree] :=
  hP.unfolds .nil

/-- The markup written for a shown node is that of its tree. -/
theorem Shows.markup_writeNode {d : Document} {parent : Option Handle} {P : Placed}
    (hP : d.Shows parent P) (hnodup : P.handles.Nodup) {n : Nat} (hn : d.size ≤ n) :
    (d.writeNode n {} P.handle).map (·.markup) = some P.tree.write := by
  rw [hP.writeNode_eq ((length_le_of_nodup hnodup hP.lt).trans hn), Option.map_some]
  rfl

/-- Copying the tree of a node copies the node. -/
theorem copied_adopt {d s : Document} (hd : d.WellFormed) (hs : s.WellFormed)
    {parent : Option Handle} {P : Placed} (hP : s.Shows parent P) :
    Copied s P.handle d (d.adopt P.tree).1 (d.adopt P.tree).2 := by
  have hwell := hd.adopt P.tree
  obtain ⟨Q, htree, hhandle, hQ, hfresh, hframe⟩ := d.adopt_spec P.tree
  have hsource := hP.tree_eq (hs.nodup_of_shows hP)
  rw [hhandle]
  refine ⟨hQ.parent_eq, ?_, ?_, ⟨P.tree.write, fun n hn => ?_, fun n hn => ?_⟩, fun x => ?_,
    fun x hx => ?_, hwell⟩
  · rw [hQ.tree_eq hfresh.nodup, htree, hsource]
  · rw [hsource]
    exact ⟨hP.unfolds_tree, htree ▸ hQ.unfolds_tree⟩
  · exact hP.markup_writeNode (hs.nodup_of_shows hP) hn
  · rw [hQ.markup_writeNode hfresh.nodup hn, htree]
  · rw [← hwell.mem_iff_below hQ, ← List.mem_cons, ← Q.handles_eq, hfresh.handles,
      List.mem_range'_1, ← hfresh.size]
  · simp only [content, parent?, children, hframe x hx, and_self]

/-- **A copy has the shape and the contents of what is copied, is made of all the new nodes, and
leaves the old ones as they are**, whether a node is copied inside its document or from another
one.  A node that is taken from its own document as from another one gives the same copy. -/
theorem copies_exact {d s : Document} (hd : d.WellFormed) (hs : s.WellFormed) :
    (∀ h < d.size, ∃ d' c, (∀ n, d.size ≤ n → cloneNode n d h = some (d', c)) ∧
      d.cloneSubtree h = (d', c) ∧ Copied d h d d' c ∧
      ∀ n, d.size ≤ n → adoptNode d n d h = some (d', c)) ∧
    ∀ h < s.size, ∃ d' c, (∀ n, s.size ≤ n → adoptNode s n d h = some (d', c)) ∧
      d.adopt (s.tree h) = (d', c) ∧ Copied s h d d' c := by
  have hadopt : ∀ {s : Document}, s.WellFormed → ∀ h < s.size,
      (∀ n, s.size ≤ n → adoptNode s n d h = some (d.adopt (s.tree h))) ∧
        Copied s h d (d.adopt (s.tree h)).1 (d.adopt (s.tree h)).2 := by
    intro s hs h hh
    obtain ⟨P, rfl, hP⟩ := hs.exists_shows hh
    have hnodup := hs.nodup_of_shows hP
    rw [hP.tree_eq hnodup]
    exact ⟨fun n hn => copyNode_eq (fun _ _ => hP) ((length_le_of_nodup hnodup hP.lt).trans hn)
      (.refl d), copied_adopt hd hs hP⟩
  refine ⟨fun h hh => ⟨_, _, fun n hn => ?_, rfl, (hadopt hd h hh).2, (hadopt hd h hh).1⟩,
    fun h hh => ⟨_, _, (hadopt hs h hh).1, rfl, (hadopt hs h hh).2⟩⟩
  obtain ⟨P, rfl, hP⟩ := hd.exists_shows hh
  have hnodup := hd.nodup_of_shows hP
  rw [hP.tree_eq hnodup]
  exact copyNode_eq (fun _ he => hP.of_extends he) ((length_le_of_nodup hnodup hP.lt).trans hn)
    (.refl d)

/-- The hypotheses are satisfiable with an element that has a marked attribute, copied inside its
document and into another one. -/
theorem copies_exact_marked : ∃ (d s : Document) (c : Content), parse "<p>x<b></b></p>" = .ok d ∧
    parse "<ul><li>a</li></ul>" = .ok s ∧
    c = .element ⟨"ul", [⟨"B", "2", false⟩, ⟨"a", "[1]", true⟩]⟩ ∧
    d.WellFormed ∧ (s.setContent 1 c).WellFormed ∧ 1 < d.size ∧ 1 < (s.setContent 1 c).size ∧
    (∃ d' h, cloneNode d.size d 1 = some (d', h) ∧ Copied d 1 d d' h) ∧
    ∃ d' h, adoptNode (s.setContent 1 c) s.size d 1 = some (d', h) ∧
      Copied (s.setContent 1 c) 1 d d' h := by
  have hd : (parse "<p>x<b></b></p>").toOption.any (fun d => decide (1 < d.size)) = true := by
    decide +kernel
  have hs : (parse "<ul><li>a</li></ul>").toOption.any (fun s => decide (1 < s.size)) = true := by
    decide +kernel
  obtain ⟨d, hparse, hd⟩ := exists_ok_of_any hd
  obtain ⟨s, hparse', hs⟩ := exists_ok_of_any hs
  let c : Content := .element ⟨"ul", [⟨"B", "2", false⟩, ⟨"a", "[1]", true⟩]⟩
  have hwell := wellFormed_of_parse hparse
  have hwell' := (wellFormed_of_parse hparse').setContent 1 c
  have hsize := size_setContent s 1 c
  obtain ⟨hclone, hadopt⟩ := copies_exact hwell hwell'
  obtain ⟨d₁, h₁, hcopy₁, -, hcopied₁, -⟩ := hclone 1 hd
  obtain ⟨d₂, h₂, hcopy₂, -, hcopied₂⟩ := hadopt 1 (hs.trans_eq hsize.symm)
  exact ⟨d, s, c, hparse, hparse', rfl, hwell, hwell', hd, hs.trans_eq hsize.symm,
    ⟨d₁, h₁, hcopy₁ _ le_rfl, hcopied₁⟩, d₂, h₂, hcopy₂ _ hsize.le, hcopied₂⟩

end Document
end Markup
end HtmlCompose
