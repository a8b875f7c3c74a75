/-
# All walks meet the same nodes

A well-formed document is walked down with a stack, up from node to node, and down once more for
writing.  Each walk ends, and they agree (`walks_agree`).

The walks down are told by the tree that the document shows at a node: with the tree on top of the
stack, as many steps as it has nodes list its handles and leave the rest of the stack
(`Shows.descend_eq`), and writing comes to them in the same order (`Shows.writeNode_eq`).  What has
no markup of its own inside, as a text or a comment, hides the nodes below it from writing; they
are listed all the same (`Placed.written`, `WellFormed.mem_written_iff`).  The walk up has its own
induction: a node has more nodes above it than its parent, so there are as many steps as it needs
(`WellFormed.ascend_eq`).
-/
import HtmlCompose.Markup.Traversal
import HtmlCompose.Proofs.Markup.Parsed
import HtmlCompose.Proofs.Markup.Walks

namespace HtmlCompose
namespace Markup

/-- The markup of a node has that of its children in it. -/
def Content.holdsChildren : Content → Bool
  | .fragment | .element _ => true
  | _ => false

namespace Placed

mutual
/-- The nodes that writing comes to, in its order. -/
def written : Placed → List Handle
  | node h c kids => h :: if c.holdsChildren then allWritten kids else []

/-- The nodes of trees in a row that writing comes to. -/
def allWritten : List Placed → List Handle
  | [] => []
  | P :: Ps => P.written ++ allWritten Ps
end

mutual
/-- Writing comes to the nodes of a tree in their order. -/
theorem written_sublist (P : Placed) : P.written.Sublist P.handles := by
  obtain ⟨h, c, kids⟩ := P
  rw [written, handles]
  split
  · exact (allWritten_sublist kids).cons_cons h
  · exact (List.nil_sublist _).cons_cons h

/-- Writing comes to the nodes of a row in their order. -/
theorem allWritten_sublist (Ps : List Placed) : (allWritten Ps).Sublist (allHandles Ps) := by
  match Ps with
  | [] => exact .refl _
  | P :: Ps =>
    rw [allWritten, allHandles]
    exact (written_sublist P).append (allWritten_sublist Ps)
end

/-- Writing a tree comes to its topmost node. -/
theorem handle_mem_written (P : Placed) : P.handle ∈ P.written := by
  obtain ⟨h, c, kids⟩ := P
  rw [written]
  exact List.mem_cons_self

/-- Writing a row comes to the topmost nodes of its trees. -/
theorem map_handle_subset_allWritten (Ps : List Placed) : Ps.map handle ⊆ allWritten Ps := by
  induction Ps with
  | nil => exact List.Subset.refl _
  | cons P Ps ih =>
    rw [List.map_cons, List.cons_subset, allWritten]
    exact ⟨List.mem_append_left _ P.handle_mem_written, List.subset_append_of_subset_right _ ih⟩

end Placed

namespace Document

variable {d : Document} {a h x : Handle}

/-! ### Down with a stack -/

mutual
/-- The handles of a tree on top of the stack are listed, and the rest of the stack is left. -/
theorem Shows.descend_eq {d : Document} {parent : Option Handle} {P : Placed}
    (hP : d.Shows parent P) (n : Nat) (waiting met : List Handle) :
    d.descend (P.handles.length + n) (P.handle :: waiting) met =
      d.descend n waiting (met ++ P.handles) := by
  obtain ⟨h, c, kids⟩ := P
  have hchildren : d.children h = kids.map Placed.handle := congrArg Node.children hP.2.1
  rw [Placed.handles, List.length_cons, Nat.add_right_comm, Placed.handle, descend, hchildren,
    ShowsAll.descend_eq hP.2.2, List.append_assoc, List.singleton_append]

/-- With fuel for all its nodes, the descent over a shown row meets them in order before what else
is waiting. -/
theorem ShowsAll.descend_eq {d : Document} {parent : Option Handle} {Ps : List Placed}
    (hPs : d.ShowsAll parent Ps) (n : Nat) (waiting met : List Handle) :
    d.descend ((Placed.allHandles Ps).length + n) (Ps.map Placed.handle ++ waiting) met =
      d.descend n waiting (met ++ Placed.allHandles Ps) := by
  match Ps with
  | [] => simp [Placed.allHandles]
  | P :: Ps =>
    rw [Placed.allHandles, List.length_append, Nat.add_assoc, List.map_cons, List.cons_append,
      Shows.descend_eq hPs.1, ShowsAll.descend_eq hPs.2, List.append_assoc]
end

/-! ### Up -/

/-- Above a node without parent the ascent ends. -/
theorem ascend_none (d : Document) (a : Handle) (n : Nat) : d.ascend a n none = some false := by
  cases n <;> rfl

/-- A node without parent is within no other. -/
theorem isWithin_of_top (htop : d.parent? x = none) : d.isWithin x a = false :=
  Bool.eq_false_iff.2 fun hx => not_below_of_top htop a (isWithin_iff_below.1 hx)

/-- A node is within another if its parent is that node or within it. -/
theorem isWithin_of_parent {p : Handle} (hp : d.parent? x = some p) :
    d.isWithin x a = (decide (p = a) || d.isWithin p a) := by
  rw [Bool.eq_iff_iff, Bool.or_eq_true, decide_eq_true_iff, isWithin_iff_below,
    isWithin_iff_below, below_of_parent hp]

/-- The walk up ends within as many steps as there are nodes above. -/
theorem WellFormed.ascend_eq (hd : d.WellFormed) {n : Nat} (hn : (WellFormed.above d x).card ≤ n) :
    d.ascend a n (d.parent? x) = some (d.isWithin x a) := by
  induction hd.ends x generalizing n with
  | top htop => rw [htop, ascend_none, isWithin_of_top htop]
  | @up x p hp _ ih =>
    have hless := hd.above_child hp
    obtain ⟨n, rfl⟩ : ∃ m, n = m + 1 := ⟨n - 1, by omega⟩
    rw [hp, ascend, ih (by omega), isWithin_of_parent hp]
    by_cases hpa : p = a <;> simp [hpa]

/-! ### Down for writing -/

/-- A row of placed trees is empty just if it has no topmost nodes. -/
theorem isEmpty_forest (Ps : List Placed) :
    (Placed.forest Ps).isEmpty = (Ps.map Placed.handle).isEmpty := by
  cases Ps <;> rfl

mutual
/-- **Writing comes to the nodes of a tree that are not hidden**, and writes the tree. -/
theorem Shows.writeNode_eq {d : Document} {parent : Option Handle} {P : Placed}
    (hP : d.Shows parent P) {n : Nat} (hn : P.handles.length ≤ n) (w : Writing) :
    d.writeNode n w P.handle = some ⟨w.visited ++ P.written, w.markup ++ P.tree.write⟩ := by
  obtain ⟨h, c, kids⟩ := P
  rw [Placed.handles, List.length_cons] at hn
  obtain ⟨n, rfl⟩ : ∃ m, n = m + 1 := ⟨n - 1, by omega⟩
  have hchildren : d.children h = kids.map Placed.handle := congrArg Node.children hP.2.1
  have hcontent : d.content h = c := congrArg Node.content hP.2.1
  have hkids := ShowsAll.writeNode_eq hP.2.2 (n := n) (by omega)
  rw [Placed.handle, writeNode, hchildren, hcontent, Placed.written, Placed.tree]
  cases c with
  | fragment => simp [hkids, Writing.visit, Content.holdsChildren, Tree.write]
  | text s => simp [Writing.visit, Writing.put, Content.holdsChildren, Tree.write]
  | comment body => simp [Writing.visit, Writing.put, Content.holdsChildren, Tree.write]
  | doctype s => simp [Writing.visit, Writing.put, Content.holdsChildren, Tree.write]
  | element e =>
    simp only [Tree.write, isEmpty_forest]
    split
    · next hvoid =>
      have hnone : kids = [] := by simpa using And.right (by simpa using hvoid)
      simp [hnone, Writing.visit, Writing.put, Content.holdsChildren, Placed.allWritten]
    · simp [hkids, Writing.visit, Writing.put, Content.holdsChildren]

/-- **Writing shown trees** visits their nodes and appends their markup. -/
theorem ShowsAll.writeNode_eq {d : Document} {parent : Option Handle} {Ps : List Placed}
    (hPs : d.ShowsAll parent Ps) {n : Nat} (hn : (Placed.allHandles Ps).length ≤ n)
    (w : Writing) : (Ps.map Placed.handle).foldlM (d.writeNode n) w =
      some ⟨w.visited ++ Placed.allWritten Ps, w.markup ++ Forest.write (Placed.forest Ps)⟩ := by
  match Ps with
  | [] => simp [Placed.allWritten, Placed.forest, Forest.write]
  | P :: Ps =>
    rw [Placed.allHandles, List.length_append] at hn
    rw [List.map_cons, List.foldlM_cons, Shows.writeNode_eq hPs.1 (by omega)]
    simp only [Option.bind_eq_bind, Option.bind_some]
    rw [ShowsAll.writeNode_eq hPs.2 (by omega), Placed.allWritten, Placed.forest, Forest.write,
      List.append_assoc, List.append_assoc]
end

mutual
/-- Writing comes to a node from its parent. -/
theorem Shows.parent_of_written {d : Document} {parent : Option Handle} {P : Placed} {x : Handle}
    (hP : d.Shows parent P) (hx : x ∈ P.written) : x = P.handle ∨ ∃ y ∈ P.written,
      d.parent? x = some y ∧ (d.content y).holdsChildren = true := by
  obtain ⟨h, c, kids⟩ := P
  rw [Placed.written, List.mem_cons] at hx
  refine hx.imp_right fun hx => ?_
  split at hx
  · next hc =>
    have hcontent : d.content h = c := congrArg Node.content hP.2.1
    rw [Placed.written, if_pos hc]
    rcases ShowsAll.parent_of_written hP.2.2 hx with hparent | ⟨y, hy, hparent⟩
    · exact ⟨h, List.mem_cons_self, hparent, hcontent.symm ▸ hc⟩
    · exact ⟨y, List.mem_cons_of_mem h hy, hparent⟩
  · exact absurd hx List.not_mem_nil

/-- A node that writing comes to is topmost, or a child of such an element. -/
theorem ShowsAll.parent_of_written {d : Document} {p : Handle} {Ps : List Placed} {x : Handle}
    (hPs : d.ShowsAll (some p) Ps) (hx : x ∈ Placed.allWritten Ps) :
    d.parent? x = some p ∨ ∃ y ∈ Placed.allWritten Ps,
      d.parent? x = some y ∧ (d.content y).holdsChildren = true := by
  match Ps with
  | [] => exact absurd hx List.not_mem_nil
  | P :: Ps =>
    rw [Placed.allWritten, List.mem_append] at hx
    rw [Placed.allWritten]
    rcases hx with hx | hx
    · rcases Shows.parent_of_written hPs.1 hx with rfl | ⟨y, hy, hparent⟩
      · exact .inl (Shows.parent_eq hPs.1)
      · exact .inr ⟨y, List.mem_append_left _ hy, hparent⟩
    · rcases ShowsAll.parent_of_written hPs.2 hx with hparent | ⟨y, hy, hparent⟩
      · exact .inl hparent
      · exact .inr ⟨y, List.mem_append_right _ hy, hparent⟩
end

mutual
/-- Writing goes on to the children of a node that holds them. -/
theorem Shows.written_of_child {d : Document} {parent : Option Handle} {P : Placed} {x y : Handle}
    (hP : d.Shows parent P) (hy : y ∈ P.written) (hc : (d.content y).holdsChildren = true)
    (hx : x ∈ d.children y) : x ∈ P.written := by
  obtain ⟨h, c, kids⟩ := P
  have hchildren : d.children h = kids.map Placed.handle := congrArg Node.children hP.2.1
  have hcontent : d.content h = c := congrArg Node.content hP.2.1
  rw [Placed.written, List.mem_cons] at hy ⊢
  refine .inr ?_
  rcases hy with rfl | hy
  · rw [hchildren] at hx
    rw [if_pos (hcontent ▸ hc)]
    exact Placed.map_handle_subset_allWritten kids hx
  · split at hy
    · next h' =>
      rw [if_pos h']
      exact ShowsAll.written_of_child hP.2.2 hy hc hx
    · exact absurd hy List.not_mem_nil

/-- Writing comes to the children of every element that it comes to. -/
theorem ShowsAll.written_of_child {d : Document} {parent : Option Handle} {Ps : List Placed}
    {x y : Handle} (hPs : d.ShowsAll parent Ps) (hy : y ∈ Placed.allWritten Ps)
    (hc : (d.content y).holdsChildren = true) (hx : x ∈ d.children y) :
    x ∈ Placed.allWritten Ps := by
  match Ps with
  | [] => exact absurd hy List.not_mem_nil
  | P :: Ps =>
    rw [Placed.allWritten, List.mem_append] at hy ⊢
    rcases hy with hy | hy
    · exact .inl (Shows.written_of_child hPs.1 hy hc hx)
    · exact .inr (ShowsAll.written_of_child hPs.2 hy hc hx)
end

/-- **Writing comes to a node exactly if all that is above it, up to the top, holds its
children.** -/
theorem WellFormed.mem_written_iff (hd : d.WellFormed) {parent : Option Handle} {P : Placed}
    (hP : d.Shows parent P) : x ∈ P.written ↔ (x = P.handle ∨ d.Below x P.handle) ∧
      ∀ y, d.Below x y → (y = P.handle ∨ d.Below y P.handle) →
        (d.content y).holdsChildren = true := by
  constructor
  · refine fun hx => ⟨hP.eq_or_below ((Placed.written_sublist P).subset hx), fun y hxy hy => ?_⟩
    -- on the way up from `x` to `y` the top is not met before `y`
    have htop : ¬d.Below P.handle y := fun hb => by
      rcases hy with rfl | hy
      · exact (hd.ends _).not_below_self hb
      · exact (hd.ends _).not_below_self (hb.trans hy)
    induction hxy with
    | child hp =>
      rcases hP.parent_of_written hx with rfl | ⟨z, -, hz, hholds⟩
      · exact absurd (.child hp) htop
      · exact Option.some.inj (hz.symm.trans hp) ▸ hholds
    | up hp hpy ih =>
      rcases hP.parent_of_written hx with rfl | ⟨z, hz, hxz, -⟩
      · exact absurd (.up hp hpy) htop
      · exact ih (Option.some.inj (hxz.symm.trans hp) ▸ hz) hy htop
  · rintro ⟨rfl | hx, hholds⟩
    · exact P.handle_mem_written
    have hstep : ∀ {x p : Handle}, d.parent? x = some p → p ∈ P.written →
        (d.content p).holdsChildren = true → x ∈ P.written := fun hp hmem hc =>
      hP.written_of_child hmem hc ((hd.linked _ _).2 hp)
    generalize htop : P.handle = a at hx hholds
    induction hx with
    | child hp =>
      exact hstep hp (htop ▸ P.handle_mem_written) (hholds _ (.child hp) (.inl rfl))
    | up hp hpa ih =>
      exact hstep hp (ih htop fun y hy hya => hholds y (.up hp hy) hya)
        (hholds _ (.child hp) (.inr hpa))

/-! ### All walks -/

/-- The walks from a node end and agree. -/
structure WalksAgree (d : Document) (a : Handle) : Prop where
  down : ∀ n, d.size ≤ n → d.descend n (d.children a) [] = some (d.descendants a)
  once : (d.descendants a).Nodup
  below : ∀ x, x ∈ d.descendants a ↔ d.Below x a
  preorder : d.descendants a = (d.children a).flatMap fun c => c :: d.descendants c
  /-- writing keeps to the order of the walk down and leaves out what is hidden -/
  writing : ∃ w : Writing, (∀ n, d.size ≤ n → d.writeNode n {} a = some w) ∧
    w.markup = (d.tree a).write ∧ w.visited.Sublist (a :: d.descendants a) ∧
    (∀ x, x ∈ w.visited ↔ (x = a ∨ d.Below x a) ∧
      ∀ y, d.Below x y → (y = a ∨ d.Below y a) → (d.content y).holdsChildren = true) ∧
    ((∀ y, (y = a ∨ d.Below y a) → d.children y ≠ [] → (d.content y).holdsChildren = true) →
      w.visited = a :: d.descendants a)
  up : ∀ x n, d.size ≤ n → d.ascend a n (d.parent? x) = some (d.isWithin x a)
  within : ∀ x, x ∈ d.descendants a ↔ d.isWithin x a = true
  elements : ∀ name, (d.findElements a name).Sublist (d.descendants a) ∧
    ∀ x, x ∈ d.findElements a name ↔ x ∈ d.descendants a ∧ ∃ e, d.content x = .element e ∧
      e.name.toList.map Char.toLower = name.toList.map Char.toLower
  first : ∀ name, d.findElement? a name = (d.findElements a name).head?
  text : d.textContent a = String.join ((a :: d.descendants a).map fun x =>
    match d.content x with | .text s => s | _ => "")

/-- The children of a row with all that is below them are the nodes of the row. -/
theorem ShowsAll.flatMap_descendants {parent : Option Handle} {Ps : List Placed}
    (hPs : d.ShowsAll parent Ps) (hnodup : (Placed.allHandles Ps).Nodup) :
    (Ps.map Placed.handle).flatMap (fun c => c :: d.descendants c) = Placed.allHandles Ps := by
  induction Ps with
  | nil => rfl
  | cons P Ps ih =>
    rw [Placed.allHandles, List.nodup_append'] at hnodup
    rw [List.map_cons, List.flatMap_cons, hPs.1.descendants_eq hnodup.1, ih hPs.2 hnodup.2.1,
      Placed.allHandles, P.handles_eq]

/-- The text of a shown node is that of its text nodes, in order. -/
theorem Shows.textContent_eq {parent : Option Handle} {P : Placed} (hP : d.Shows parent P)
    (hnodup : P.handles.Nodup) : d.textContent P.handle = String.join (P.handles.map fun x =>
      match d.content x with | .text s => s | _ => "") := by
  have hcontents := congrArg (List.map fun c => match c with | Content.text s => s | _ => "")
    hP.map_content
  rw [List.map_map, List.map_map] at hcontents
  rw [textContent, Forest.textContent, hP.tree_eq hnodup, Forest.preorder, Forest.preorder,
    List.append_nil]
  exact congrArg String.join hcontents

/-- Names of elements are compared without regard to case. -/
theorem isElement_iff {name : String} : d.isElement name x = true ↔ ∃ e, d.content x = .element e ∧
    e.name.toList.map Char.toLower = name.toList.map Char.toLower := by
  rw [isElement, element?]
  cases d.content x <;> simp [Content.element?, Element.is, sameName, Text.foldCase]

/-- What has something below it has a child. -/
theorem Below.exists_child (hx : d.Below x a) : ∃ c, d.parent? c = some a := by
  induction hx with
  | child hp => exact ⟨_, hp⟩
  | up _ _ ih => exact ih

/-- What has no children that it hides is written with all that is below it. -/
theorem WellFormed.written_eq (hd : d.WellFormed) {parent : Option Handle} {P : Placed}
    (hP : d.Shows parent P) (hholds : ∀ y, (y = P.handle ∨ d.Below y P.handle) →
      d.children y ≠ [] → (d.content y).holdsChildren = true) : P.written = P.handles := by
  refine (Placed.written_sublist P).eq_of_length_le ?_
  refine (List.subperm_of_subset (hd.nodup_of_shows hP) fun x hx => ?_).length_le
  refine (hd.mem_written_iff hP).2 ⟨hP.eq_or_below hx, fun y hxy hy => hholds y hy fun hnone => ?_⟩
  obtain ⟨z, hz⟩ := hxy.exists_child
  exact absurd ((hd.linked y z).2 hz) (hnone ▸ List.not_mem_nil)

section Shown

variable {parent : Option Handle} {P : Placed}

/-- The children of a shown node are the topmost nodes of the trees below it. -/
theorem Shows.children_eq (hP : d.Shows parent P) :
    d.children P.handle = P.children.map Placed.handle := by
  obtain ⟨h, c, kids⟩ := P
  exact congrArg Node.children hP.2.1

/-- The trees below a shown node are shown below it. -/
theorem Shows.showsAll_children (hP : d.Shows parent P) :
    d.ShowsAll (some P.handle) P.children := by
  obtain ⟨h, c, kids⟩ := P
  exact hP.2.2

/-- A shown node with its descendants is the list of its tree's nodes. -/
theorem Shows.cons_descendants (hP : d.Shows parent P) (hnodup : P.handles.Nodup) :
    P.handle :: d.descendants P.handle = P.handles := by
  rw [hP.descendants_eq hnodup, P.handles_eq]

/-- The walk down with a stack ends within as many steps as there are nodes. -/
theorem Shows.descend_children (hP : d.Shows parent P) (hnodup : P.handles.Nodup) {n : Nat}
    (hn : d.size ≤ n) : d.descend n (d.children P.handle) [] = some (d.descendants P.handle) := by
  have hlength := length_le_of_nodup hnodup hP.lt
  rw [P.handles_eq, List.length_cons] at hlength
  have hle : (Placed.allHandles P.children).length ≤ n := by omega
  obtain ⟨m, rfl⟩ := Nat.exists_eq_add_of_le hle
  have hwalk := hP.showsAll_children.descend_eq m [] []
  rw [List.append_nil, List.nil_append] at hwalk
  rw [hP.children_eq, hwalk, hP.descendants_eq hnodup]
  cases m <;> rfl

/-- The descendants of a shown node are its children, each before its own. -/
theorem Shows.descendants_preorder (hP : d.Shows parent P) (hnodup : P.handles.Nodup) :
    d.descendants P.handle = (d.children P.handle).flatMap fun c => c :: d.descendants c := by
  rw [P.handles_eq] at hnodup
  rw [hP.children_eq, hP.showsAll_children.flatMap_descendants (List.nodup_cons.1 hnodup).2,
    hP.descendants_eq (P.handles_eq ▸ hnodup)]

end Shown

/-- **In a well-formed document all walks end and agree.** -/
theorem walks_agree (hd : d.WellFormed) (ha : a < d.size) : d.WalksAgree a := by
  obtain ⟨P, rfl, hP⟩ := hd.exists_shows ha
  have hnodup := hd.nodup_of_shows hP
  have hhandles := hP.cons_descendants hnodup
  have hlength := length_le_of_nodup hnodup hP.lt
  refine {
    down := fun n hn => hP.descend_children hnodup hn
    once := (List.nodup_cons.1 (hhandles ▸ hnodup)).2
    below := fun x => ?_
    preorder := hP.descendants_preorder hnodup
    writing := ?_
    up := fun x n hn => ?_
    within := fun x => hd.mem_descendants_iff ha
    elements := fun name => ⟨List.filter_sublist, fun x => ?_⟩
    first := fun name => (List.head?_filter ..).symm
    text := ?_ }
  · rw [hd.mem_descendants_iff ha, isWithin_iff_below]
  · refine ⟨⟨P.written, P.tree.write⟩, fun n hn => hP.writeNode_eq (hlength.trans hn) {}, ?_, ?_,
      fun x => hd.mem_written_iff hP, fun hholds => ?_⟩
    · rw [hP.tree_eq hnodup]
    · exact hhandles ▸ P.written_sublist
    · exact (hd.written_eq hP hholds).trans hhandles.symm
  · refine hd.ascend_eq (le_trans ?_ hn)
    exact (Finset.card_filter_le _ _).trans (Finset.card_range _).le
  · rw [findElements, List.mem_filter, isElement_iff]
  · rw [hhandles, hP.textContent_eq hnodup]

/-- The hypotheses are satisfiable with a text that another text has been put below, and two
spellings of one tag name. -/
theorem walks_agree_hidden : ∃ d : Document, parse "<ul><li>a</li><LI>b</LI></ul>" = .ok d ∧
    (d.append 3 5).WellFormed ∧ 1 < (d.append 3 5).size ∧
    (d.append 3 5).descendants 1 = [2, 3, 5, 4] ∧
    ((d.append 3 5).writeNode 6 {} 1).map (·.visited) = some [1, 2, 3, 4] ∧
    (d.append 3 5).findElements 1 "li" = [2, 4] ∧ (d.append 3 5).WalksAgree 1 := by
  have hany : (parse "<ul><li>a</li><LI>b</LI></ul>").toOption.any (fun d =>
      decide (d.size = 6 ∧ d.isWithin 3 5 = false ∧ (d.append 3 5).size = 6 ∧
        (d.append 3 5).descendants 1 = [2, 3, 5, 4] ∧
        ((d.append 3 5).writeNode 6 {} 1).map (·.visited) = some [1, 2, 3, 4] ∧
        (d.append 3 5).findElements 1 "li" = [2, 4])) = true := by decide +kernel
  obtain ⟨d, hparse, hsize, hapart, hsize', hdescendants, hvisited, helements⟩ :=
    exists_ok_of_any hany
  have hd : (d.append 3 5).WellFormed := by
    refine (wellFormed_of_parse hparse).append (hsize ▸ by decide) (hsize ▸ by decide) (by decide)
      fun hbelow => ?_
    rw [isWithin_iff_below.2 hbelow] at hapart
    cases hapart
  have hlt : 1 < (d.append 3 5).size := hsize' ▸ by decide
  exact ⟨d, hparse, hd, hlt, hdescendants, hvisited, helements, walks_agree hd hlt⟩

end Document
end Markup
end HtmlCompose
