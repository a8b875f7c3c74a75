/-
# A document grows as the trees are built

Trees are built from the inside out: an element becomes a tree when it is closed, with all
that was put into it.  A document grows the other way round: an element is a node, linked to
its parent, before anything is put into it.  Both come to the same document, because it does
not matter when a node is linked: linking it changes two nodes that are there, and copying
trees into one of them adds new nodes behind, so the two may change places
(`adoptInto_modify`, `append_adoptInto`).

At every moment of reading, the open elements and what has been put into each tell the
document so far, with its open nodes (`Builder.draft`).  Each step of the one is the step of
the other (`Builder.draft_take`), and so are all steps of a source (`grow_eq_parse`).
-/
import HtmlCompose.Markup.Draft
import HtmlCompose.Proofs.Markup.ReadBack

namespace HtmlCompose
namespace Markup

/-- A change of a node that does not look at its children and leaves them as they are. -/
def Node.SparesChildren (f : Node → Node) : Prop :=
  ∀ n l, f ⟨n.content, n.parent, l⟩ = ⟨(f n).content, (f n).parent, l⟩

/-- Such a change keeps the children. -/
theorem Node.SparesChildren.children_eq {f : Node → Node} (hf : Node.SparesChildren f) (n : Node) :
    (f n).children = n.children := by
  have h := congrArg Node.children (hf n n.children)
  exact h

namespace Document

variable {d d' : Document} {p h x : Handle} {f g : Node → Node}

/-! ### Changes that may change places -/

/-- Documents of one size with the same records are the same. -/
theorem ext_node (hsize : d.size = d'.size) (hnode : ∀ x < d.size, d.node x = d'.node x) :
    d = d' := by
  refine congrArg Document.mk (Array.ext hsize fun i hi hi' => ?_)
  have hi := hnode i hi
  rwa [node, node, Array.getD_eq_getD_getElem?, Array.getD_eq_getD_getElem?,
    Array.getElem?_eq_getElem ‹i < d.nodes.size›, Array.getElem?_eq_getElem hi'] at hi

/-- Two edits of records may change places, unless they are edits of one record that may not. -/
theorem modify_comm (d : Document) {y : Handle} (hfg : x = y → ∀ n, g (f n) = f (g n)) :
    (d.modify x f).modify y g = (d.modify y g).modify x f := by
  refine ext_node (by simp only [size_modify]) fun z hz => ?_
  rw [size_modify, size_modify] at hz
  by_cases hx : z = x <;> by_cases hy : z = y
  · subst hx hy
    rw [node_modify_self (by rwa [size_modify]), node_modify_self hz,
      node_modify_self (by rwa [size_modify]), node_modify_self hz, hfg rfl]
  · subst hx
    rw [node_modify_of_ne hy, node_modify_self hz, node_modify_self (by rwa [size_modify]),
      node_modify_of_ne hy]
  · subst hy
    rw [node_modify_self (by rwa [size_modify]), node_modify_of_ne hx, node_modify_of_ne hx,
      node_modify_self hz]
  · simp only [node_modify_of_ne hx, node_modify_of_ne hy]

/-- Creating a node makes the document larger. -/
theorem size_lt_create (d : Document) (c : Content) : d.size < (d.create c).1.size := by
  rw [size_create]
  exact Nat.lt_succ_self _

/-- A node may be created before or after another one is edited. -/
theorem create_modify (hx : x < d.size) (f : Node → Node) (c : Content) :
    (d.modify x f).create c = ((d.create c).1.modify x f, d.size) := by
  refine Prod.ext (ext_node (by simp only [size_create, size_modify]) fun z hz => ?_)
    (size_modify d x f)
  rw [size_create, size_modify] at hz
  rcases Nat.lt_or_eq_of_le (Nat.le_of_lt_succ hz) with hlt | rfl
  · rw [node_create_of_lt (by rwa [size_modify])]
    by_cases hzx : z = x
    · subst hzx
      rw [node_modify_self hlt, node_modify_self (by rwa [size_create]), node_create_of_lt hlt]
    · rw [node_modify_of_ne hzx, node_modify_of_ne hzx, node_create_of_lt hlt]
  · have hself := node_create_self (d.modify x f) c
    rw [size_modify] at hself
    rw [hself, node_modify_of_ne hx.ne', node_create_self]

/-- The content of the newest node may as well be another one from the start. -/
theorem create_setContent (d : Document) (c c' : Content) :
    (d.create c).1.setContent d.size c' = (d.create c').1 := by
  refine ext_node (by simp only [size_create, size_setContent]) fun z hz => ?_
  rw [size_setContent, size_create] at hz
  rcases Nat.lt_or_eq_of_le (Nat.le_of_lt_succ hz) with hlt | rfl
  · rw [node_setContent_of_ne hlt.ne, node_create_of_lt hlt, node_create_of_lt hlt]
  · rw [node_setContent_self (by rwa [size_create]), node_create_self, node_create_self]

/-- A node may be edited before or after a child is linked below it, if the edit spares its
children. -/
theorem link_modify (d : Document) (hx : x ≠ h) (hf : x = p → Node.SparesChildren f) :
    (d.modify x f).link p h (· ++ [h]) = (d.link p h (· ++ [h])).modify x f := by
  have hplace : x = p → ∀ n : Node,
      (⟨(f n).content, (f n).parent, (f n).children ++ [h]⟩ : Node) =
        f ⟨n.content, n.parent, n.children ++ [h]⟩ := fun hxp n => by
    rw [(hf hxp).children_eq]
    exact (hf hxp n _).symm
  rw [link, link, modify_comm d hplace, modify_comm _ fun hxh => absurd hxh hx]

/-- The content of a node may be set before or after the node is linked. -/
theorem link_setContent (d : Document) (hne : p ≠ h) (c : Content)
    (place : List Handle → List Handle) :
    (d.link p h place).setContent h c = (d.setContent h c).link p h place := by
  have hself := modify_comm (d.modify p fun n => { n with children := place n.children }) (x := h)
    (y := h) (f := fun n => { n with parent := some p }) (g := fun n => { n with content := c })
    fun _ _ => rfl
  rw [setContent, setContent, link, link, hself, modify_comm d fun heq => absurd heq hne]

/-- A tree is copied from the top: its topmost node first, what is below it behind. -/
theorem adopt_node (d : Document) (c : Content) (kids : Forest) :
    d.adopt (.node c kids) = ((d.create c).1.adoptInto d.size kids, d.size) := by
  rw [adopt]
  rfl

/-- The copy of a tree stands at the next handle. -/
theorem adopt_snd (d : Document) (t : Tree) : (d.adopt t).2 = d.size := by
  obtain ⟨c, kids⟩ := t
  rw [adopt_node]

/-- A copy has no parent until it is linked. -/
theorem parent_adopt (d : Document) (t : Tree) : ((d.adopt t).1.node d.size).parent = none := by
  obtain ⟨P, -, hhandle, hshows, -, -⟩ := adopt_spec d t
  rw [← adopt_snd d t, hhandle]
  exact hshows.parent_eq

/-- Copying a tree makes the document larger. -/
theorem size_lt_adopt (d : Document) (t : Tree) : d.size < (d.adopt t).1.size := by
  obtain ⟨P, -, hhandle, hshows, -, -⟩ := adopt_spec d t
  rw [← adopt_snd d t, hhandle]
  exact hshows.lt _ P.handle_mem

/-- A tree is copied, and its topmost node linked. -/
theorem adoptInto_cons_eq (d : Document) (p : Handle) (t : Tree) (ts : Forest) :
    d.adoptInto p (t :: ts) = ((d.adopt t).1.link p d.size (· ++ [d.size])).adoptInto p ts := by
  rw [adoptInto_cons, adopt_snd, append_eq_link (parent_adopt d t)]

/-- Trees are copied below a node as well in two parts, one after the other. -/
theorem adoptInto_append (d : Document) (p : Handle) (ts us : Forest) :
    d.adoptInto p (ts ++ us) = (d.adoptInto p ts).adoptInto p us := by
  induction ts generalizing d with
  | nil => rw [List.nil_append, adoptInto]
  | cons t ts ih => rw [List.cons_append, adoptInto_cons, ih, adoptInto_cons]

mutual
/-- A node may be changed before or after a tree is copied. -/
theorem adopt_modify {d : Document} {x : Handle} (hx : x < d.size) (f : Node → Node) (t : Tree) :
    (d.modify x f).adopt t = ((d.adopt t).1.modify x f, d.size) := by
  obtain ⟨c, kids⟩ := t
  have hd := size_lt_create d c
  rw [adopt_node, create_modify hx, size_modify, adopt_node,
    adoptInto_modify (hx.trans hd) hd (fun h => absurd h hx.ne)]

/-- **A node may be changed before or after trees are copied.**  If it is the one that they are
put below, the change must spare the children. -/
theorem adoptInto_modify {d : Document} {x p : Handle} {f : Node → Node} (hx : x < d.size)
    (hp : p < d.size) (hf : x = p → Node.SparesChildren f) (ts : Forest) :
    (d.modify x f).adoptInto p ts = (d.adoptInto p ts).modify x f := by
  match ts with
  | [] => rw [adoptInto, adoptInto]
  | t :: ts =>
    have hsize : ((d.adopt t).1.link p d.size (· ++ [d.size])).size = (d.adopt t).1.size :=
      size_link ..
    have hlt := size_lt_adopt d t
    rw [adoptInto_cons_eq, adopt_modify hx, size_modify, link_modify _ hx.ne hf,
      adoptInto_modify (by rw [hsize]; exact hx.trans hlt) (by rw [hsize]; exact hp.trans hlt) hf,
      adoptInto_cons_eq]
end

/-- **A node may be linked before or after trees are put below it.** -/
theorem append_adoptInto (hp : p < d.size) (hh : h < d.size) (hne : p ≠ h)
    (hparent : (d.node h).parent = none) (ts : Forest) :
    (d.append p h).adoptInto h ts = (d.adoptInto h ts).append p h := by
  have hparent' : ((d.adoptInto h ts).node h).parent = none := by
    obtain ⟨Ps, -, hnode, -⟩ := adoptInto_spec d h ts hh
    rw [hnode]
    exact hparent
  have hsize : (d.modify p fun n => { n with children := n.children ++ [h] }).size = d.size :=
    size_modify ..
  rw [append_eq_link hparent, append_eq_link hparent', link, link,
    adoptInto_modify (by rwa [hsize]) (by rwa [hsize]) (fun _ _ _ => rfl),
    adoptInto_modify hp hh (fun heq => absurd heq hne)]

/-! ### Copies at the end of a node -/

/-- Copying trees takes no nodes away. -/
theorem size_le_adoptInto (hp : p < d.size) (ts : Forest) : d.size ≤ (d.adoptInto p ts).size := by
  obtain ⟨Ps, -, -, -, hfresh, -⟩ := adoptInto_spec d p ts hp
  exact hfresh.size ▸ Nat.le_add_right _ _

/-- Copying trees leaves the contents that were there. -/
theorem content_adoptInto (hp : p < d.size) (hx : x < d.size) (ts : Forest) :
    (d.adoptInto p ts).content x = d.content x := by
  obtain ⟨Ps, -, hnode, -, -, hframe⟩ := adoptInto_spec d p ts hp
  rw [content, content]
  by_cases hxp : x = p
  · rw [hxp, hnode]
  · rw [hframe x hx hxp]

/-- One tree below a node: its topmost node is created, what is below it is copied, and only then
the topmost node is linked. -/
theorem adoptInto_singleton (d : Document) (p : Handle) (c : Content) (kids : Forest) :
    d.adoptInto p [.node c kids] =
      ((d.create c).1.adoptInto d.size kids).link p d.size (· ++ [d.size]) := by
  rw [adoptInto_cons_eq, adoptInto, adopt_node]

/-- The node that it is put below gets one child more, the newest. -/
theorem children_adoptInto_singleton (hp : p < d.size) (t : Tree) :
    (d.adoptInto p [t]).children p = d.children p ++ [d.size] := by
  obtain ⟨P, -, -, -, -, hframe⟩ := adopt_spec d t
  rw [adoptInto_cons_eq, adoptInto, children, node_link_parent (hp.trans (size_lt_adopt d t)) hp.ne,
    hframe p hp, children]

/-- The topmost node of the copy has the content of the tree. -/
theorem content_adoptInto_singleton (hp : p < d.size) (t : Tree) :
    (d.adoptInto p [t]).content d.size = t.content := by
  obtain ⟨c, kids⟩ := t
  have hh := size_lt_create d c
  rw [adoptInto_singleton, content, node_link_self (hh.trans_le (size_le_adoptInto hh kids)) hp.ne,
    ← content, content_adoptInto hh hh, content, node_create_self]
  rfl

/-- The content of a copy may as well be another one from the start. -/
theorem adoptInto_setContent (hp : p < d.size) (c c' : Content) (kids : Forest) :
    (d.adoptInto p [.node c kids]).setContent d.size c' = d.adoptInto p [.node c' kids] := by
  have hh := size_lt_create d c
  have hcopy := adoptInto_modify (f := fun n => { n with content := c' }) hh hh
    (fun _ _ _ => rfl) kids
  rw [adoptInto_singleton, adoptInto_singleton, link_setContent _ hp.ne, setContent, ← hcopy,
    ← setContent, create_setContent]

end Document

/-! ### Drafts -/

namespace Draft

/-- Copies of trees at the end of the open node. -/
def addAll (d : Draft) (f : Forest) : Draft :=
  { d with document := d.document.adoptInto d.current f }

/-- The document has a root, and the open nodes. -/
structure Bounded (d : Draft) : Prop where
  root : Document.root < d.document.size
  opened : ∀ h ∈ d.opened, h < d.document.size

variable {d : Draft}

/-- The node that nodes are put into is a node of the document. -/
theorem Bounded.current (hd : d.Bounded) : d.current < d.document.size := by
  rw [Draft.current]
  rcases hopened : d.opened with _ | ⟨h, hs⟩
  · exact hd.root
  · exact hd.opened h (hopened ▸ List.mem_cons_self)

@[simp] theorem addAll_nil (d : Draft) : d.addAll [] = d := by
  rw [addAll, Document.adoptInto]

/-- Trees in two rows are put in one after the other. -/
theorem addAll_append (d : Draft) (f g : Forest) : d.addAll (f ++ g) = (d.addAll f).addAll g := by
  rw [addAll, addAll, addAll, Document.adoptInto_append]
  rfl

/-- A node is a tree without children. -/
theorem add_eq (d : Draft) (c : Content) : d.add c = (d.addAll [.node c []], d.document.size) := by
  rw [addAll, Document.adoptInto_cons, Document.adopt_node, Document.adoptInto, Document.adoptInto]
  rfl

/-- An element is opened by putting in an empty one. -/
theorem push_eq (d : Draft) (e : Element) :
    d.push e =
      { d.addAll [.ofElement e []] with opened := d.document.size :: d.opened } := by
  rw [push, add_eq]
  rfl

/-- Trees that are put in leave the open nodes in bounds. -/
theorem Bounded.addAll (hd : d.Bounded) (f : Forest) : (d.addAll f).Bounded := by
  have hle := Document.size_le_adoptInto hd.current f
  exact ⟨hd.root.trans_le hle, fun h hh => (hd.opened h hh).trans_le hle⟩

/-- A tree that is put in makes the document larger. -/
theorem size_lt_addAll (d : Draft) (t : Tree) :
    d.document.size < (d.addAll [t]).document.size := by
  rw [Draft.addAll, Document.adoptInto_cons_eq, Document.adoptInto, Document.size_link]
  exact Document.size_lt_adopt _ t

/-- An element that is opened is one of the document. -/
theorem Bounded.push (hd : d.Bounded) (e : Element) : (d.push e).Bounded := by
  have hall := hd.addAll [.ofElement e []]
  have hlt := size_lt_addAll d (.ofElement e [])
  rw [push_eq]
  exact ⟨hall.root, List.forall_mem_cons.2 ⟨hlt, hall.opened⟩⟩

/-- **An element that is opened, filled and closed is one that is put there as a whole.** -/
theorem addAll_ofElement (hd : d.Bounded) (e : Element) (kids : Forest) :
    d.addAll [.ofElement e kids] = { (d.push e).addAll kids with opened := d.opened } := by
  have hh := Document.size_lt_create d.document (.element e)
  have hparent : ((d.document.create (.element e)).1.node d.document.size).parent = none := by
    rw [Document.node_create_self]
  have hcopy := Document.append_adoptInto (hd.current.trans hh) hh hd.current.ne hparent kids
  rw [addAll, Tree.ofElement, Document.adoptInto_cons, Document.adopt_node, Document.adoptInto,
    ← hcopy]
  rfl

/-- The newest node of the open one. -/
theorem last_addAll (hd : d.Bounded) (t : Tree) :
    ((d.addAll [t]).document.children (d.addAll [t]).current).getLast? = some d.document.size := by
  have hchildren := Document.children_adoptInto_singleton hd.current t
  rw [show (d.addAll [t]).document.children (d.addAll [t]).current = _ from hchildren,
    List.getLast?_concat]

/-- An element that has just been opened is empty. -/
theorem children_push (hd : d.Bounded) (e : Element) :
    (d.push e).document.children (d.push e).current = [] := by
  have hh := Document.size_lt_create d.document (.element e)
  have hnode := Document.node_link_self hh hd.current.ne (· ++ [d.document.size])
  rw [Document.node_create_self] at hnode
  rw [push_eq, addAll, Tree.ofElement, Document.adoptInto_singleton, Document.adoptInto]
  exact congrArg Node.children hnode

/-- Trees that are put in leave the contents that were there. -/
theorem content_addAll (hd : d.Bounded) {x : Handle} (hx : x < d.document.size) (f : Forest) :
    (d.addAll f).document.content x = d.document.content x :=
  Document.content_adoptInto hd.current hx f

/-- The newest node has the content of the tree that was put in. -/
theorem content_last (hd : d.Bounded) (t : Tree) :
    (d.addAll [t]).document.content d.document.size = t.content :=
  Document.content_adoptInto_singleton hd.current t

/-- Text behind anything but a text is a new one. -/
theorem addText_eq_add (hlast : ∀ s, (d.document.children d.current).getLast?.map
    d.document.content ≠ some (.text s)) (s : List Char) :
    d.addText s = (d.add (.text (String.ofList s))).1 := by
  unfold addText
  split
  · rename_i last hsome
    split
    · rename_i before htext
      rw [hsome, Option.map_some, htext] at hlast
      exact absurd rfl (hlast before)
    · rfl
  · rfl

/-- Text behind a text is joined to it. -/
theorem addText_addAll (hd : d.Bounded) (before : String) (kids : Forest) (s : List Char) :
    (d.addAll [.node (.text before) kids]).addText s =
      d.addAll [.node (.text (before ++ String.ofList s)) kids] := by
  have hset := Document.adoptInto_setContent hd.current (.text before)
    (.text (before ++ String.ofList s)) kids
  unfold addText
  rw [last_addAll hd]
  dsimp only
  rw [content_last hd]
  exact congrArg (fun document => { d with document }) hset

end Draft

/-! ### The document of a builder -/

namespace Builder

/-- Does one step. -/
def take (b : Builder) : Step → Builder
  | .text s => b.addText s
  | .leaf c => b.add (.node c [])
  | .opening e => b.push e
  | .closing name => b.close name

/-- The document in which elements were opened, each behind its earlier siblings. -/
def spine : List (Element × List Tree) → Draft
  | [] => {}
  | (e, before) :: rest => ((spine rest).addAll before.reverse).push e

/-- The document so far. -/
def draft (b : Builder) : Draft := (spine b.opened).addAll b.current.reverse

/-- The open elements are nodes of the document that they were opened in. -/
theorem bounded_spine (l : List (Element × List Tree)) : (spine l).Bounded := by
  induction l with
  | nil => exact ⟨show 0 < 1 from Nat.one_pos, nofun⟩
  | cons x l ih => exact (ih.addAll _).push _

/-- Putting in a tree. -/
theorem draft_add (b : Builder) (t : Tree) : (b.add t).draft = b.draft.addAll [t] := by
  rw [draft, add, List.reverse_cons, Draft.addAll_append]
  rfl

/-- Opening an element. -/
theorem draft_push (b : Builder) (e : Element) : (b.push e).draft = b.draft.push e := by
  rw [draft, push, List.reverse_nil, Draft.addAll_nil]
  rfl

/-- Closing an element changes nothing but what is open. -/
theorem draft_pop (b : Builder) :
    b.pop.draft = { b.draft with opened := b.draft.opened.tail } := by
  obtain ⟨current, opened⟩ := b
  rcases opened with _ | ⟨⟨e, before⟩, rest⟩
  · rfl
  · have hbounded := (bounded_spine rest).addAll before.reverse
    have hwhole := Draft.addAll_ofElement hbounded e current.reverse
    rw [pop, draft, List.reverse_cons, Draft.addAll_append]
    exact hwhole

/-- Closing several elements changes nothing but what is open. -/
theorem draft_popMany (n : Nat) (b : Builder) :
    (popMany n b).draft = { b.draft with opened := b.draft.opened.drop n } := by
  induction n generalizing b with
  | zero => rfl
  | succ n ih => rw [popMany, ih, draft_pop, List.drop_tail]

/-- The elements that stay open when several are closed are the outer ones. -/
theorem opened_popMany (n : Nat) (b : Builder) : (popMany n b).opened = b.opened.drop n := by
  induction n generalizing b with
  | zero => rfl
  | succ n ih =>
    obtain ⟨current, opened⟩ := b
    rw [popMany, ih]
    rcases opened with _ | ⟨x, rest⟩
    · rw [pop, List.drop_nil, List.drop_nil]
    · rw [pop, List.drop_succ_cons]

/-- The open nodes are the open elements. -/
theorem map_content_draft (b : Builder) :
    b.draft.opened.map b.draft.document.content = b.opened.map fun x => .element x.1 := by
  have hadd : ∀ (d : Draft), d.Bounded → ∀ f : Forest,
      (d.addAll f).opened.map (d.addAll f).document.content = d.opened.map d.document.content :=
    fun d hd f => List.map_congr_left fun h hh => Draft.content_addAll hd (hd.opened h hh) f
  rw [draft, hadd _ (bounded_spine _)]
  induction b.opened with
  | nil => rfl
  | cons x rest ih =>
    have hbounded := (bounded_spine rest).addAll x.2.reverse
    rw [spine, Draft.push_eq, List.map_cons, List.map_cons, Draft.content_last hbounded]
    exact congrArg (_ :: ·) ((hadd _ hbounded _).trans ((hadd _ (bounded_spine rest) _).trans ih))

/-- Closing the innermost element of a name closes as many in the document. -/
theorem draft_close (b : Builder) (name : String) :
    (b.close name).draft = b.draft.close name := by
  have hfind : b.draft.opened.findIdx? (b.draft.document.isElement name) =
      b.opened.findIdx? fun x => x.1.is name := by
    have hmap := congrArg (List.findIdx? fun c => c.element?.any (·.is name)) (map_content_draft b)
    rw [List.findIdx?_map, List.findIdx?_map] at hmap
    exact hmap
  rw [Builder.close, Draft.close, hfind]
  cases b.opened.findIdx? fun x => x.1.is name with
  | none => rfl
  | some i => exact draft_popMany (i + 1) b

/-- The last node of the open one is the last that was put there. -/
theorem last_draft (b : Builder) :
    (b.draft.document.children b.draft.current).getLast?.map b.draft.document.content =
      b.current.head?.map Tree.content := by
  obtain ⟨current, opened⟩ := b
  rcases current with _ | ⟨t, before⟩
  · rcases opened with _ | ⟨⟨e, before⟩, rest⟩
    · rfl
    · have hbounded := (bounded_spine rest).addAll before.reverse
      rw [draft, List.reverse_nil, Draft.addAll_nil, spine, Draft.children_push hbounded]
      rfl
  · have hbounded := (bounded_spine opened).addAll before.reverse
    rw [draft, List.reverse_cons, Draft.addAll_append, Draft.last_addAll hbounded, Option.map_some,
      Draft.content_last hbounded]
    rfl

/-- Adding text, joined to the text before it on both sides. -/
theorem draft_addText (b : Builder) (s : List Char) :
    (b.addText s).draft = b.draft.addText s := by
  rcases hends : b.endsInText with _ | _
  · have hlast : ∀ s', b.current.head?.map Tree.content ≠ some (.text s') := by
      intro s' h
      obtain ⟨t, ht, htext⟩ := Option.map_eq_some_iff.1 h
      rw [endsInText, ht, Option.any_some, Tree.isText, htext] at hends
      cases hends
    rw [addText_eq hends, draft_add, Draft.addText_eq_add (last_draft b ▸ hlast), Draft.add_eq]
    rfl
  · obtain ⟨current, opened⟩ := b
    rcases current with _ | ⟨⟨c, kids⟩, rest⟩
    · cases hends
    rcases c with _ | _ | before | _ | _
    case text =>
      have hbounded := (bounded_spine opened).addAll rest.reverse
      rw [addText, draft, draft, List.reverse_cons, List.reverse_cons, Draft.addAll_append,
        Draft.addAll_append, Draft.addText_addAll hbounded]
    all_goals cases hends

/-- **A step of the builder is the step of its document.** -/
theorem draft_take (b : Builder) (step : Step) : (b.take step).draft = b.draft.take step := by
  cases step with
  | text s => exact draft_addText b s
  | leaf c => exact (draft_add b _).trans (congrArg Prod.fst (Draft.add_eq b.draft c)).symm
  | opening e => exact draft_push b e
  | closing name => exact draft_close b name

/-- **A run of steps builds the document** that the same steps make from the one so far. -/
theorem draft_foldl (b : Builder) (steps : List Step) :
    (steps.foldl take b).draft = steps.foldl Draft.take b.draft := by
  induction steps generalizing b with
  | nil => rfl
  | cons step steps ih => rw [List.foldl_cons, ih, draft_take, List.foldl_cons]

/-- Closing everything at the end leaves the document as it is. -/
theorem draft_finish (b : Builder) : b.draft.document = .ofForest b.finish := by
  have hopened : (popMany b.opened.length b).opened = [] := by
    rw [opened_popMany, List.drop_length]
  have hdraft := congrArg Draft.document (draft_popMany b.opened.length b)
  rw [draft, hopened] at hdraft
  exact hdraft.symm

end Builder

/-! ### Steps of a source -/

/-- A step in front of all others is taken first. -/
theorem map_foldl_cons (b : Builder) (step : Step) (steps : Except Fault (List Step)) :
    (steps.map (step :: ·)).map (·.foldl Builder.take b) =
      steps.map (·.foldl Builder.take (b.take step)) := by
  cases steps <;> rfl

/-- Reading does the steps that the source asks for. -/
theorem parseFrom_eq_steps (b : Builder) (o : Nat) (s : List Char) :
    parseFrom b o s = (stepsFrom o s).map (·.foldl Builder.take b) := by
  fun_induction stepsFrom o s generalizing b with
  | case1 o s hnext =>
    have hs : s = [] := by
      by_contra hs
      obtain ⟨l, rest, hsome⟩ := exists_next? hs
      cases hnext.symm.trans hsome
    rw [hs, parseFrom_nil]
    rfl
  | case2 o s l rest hnext _ _ _ htoken ih
  | case3 o s l rest hnext _ _ _ htoken ih
  | case4 o s l rest hnext _ _ _ htoken ih
  | case5 o s l rest hnext _ _ _ htoken ih =>
    rw [map_foldl_cons, ← ih, parseFrom_eq hnext, htoken]
    rfl
  | case6 o s l rest hnext _ _ raw htoken tag hempty ih =>
    rw [map_foldl_cons, ← ih, parseFrom_eq hnext, htoken]
    exact if_pos hempty
  | case7 o s l rest hnext _ raw htoken tag hopen hraw hbody =>
    rw [parseFrom_eq hnext, htoken]
    dsimp only
    rw [if_neg hopen, if_pos hraw, hbody]
    rfl
  | case8 o s l rest hnext _ _ raw htoken tag hopen hraw body rest' hbody _ ih =>
    rw [parseFrom_eq hnext, htoken]
    dsimp only
    rw [if_neg hopen, if_pos hraw, hbody]
    dsimp only
    rw [ih]
    cases hempty : body.isEmpty with
    | true => simp only [if_true, map_foldl_cons]; rfl
    | false => cases stepsFrom _ rest' <;> rfl
  | case9 o s l rest hnext _ _ raw htoken tag hopen hraw ih =>
    rw [map_foldl_cons, ← ih, parseFrom_eq hnext, htoken]
    dsimp only
    rw [if_neg hopen, if_neg hraw]
    rfl
  | case10 o s l rest hnext _ htoken hcomment =>
    rw [parseFrom_eq hnext, htoken]
    exact if_pos hcomment
  | case11 o s l rest hnext _ _ htoken hcomment ih =>
    rw [map_foldl_cons, ← ih, parseFrom_eq hnext, htoken]
    exact if_neg hcomment

/-- **The document that grows along a source is the one of its trees.** -/
theorem grow_eq_parse (source : String) : Document.grow source = Document.parse source := by
  rw [Document.grow, Document.parse, parse, parseFrom_eq_steps]
  rcases stepsFrom 0 source.toList with fault | steps
  · rfl
  · refine congrArg Except.ok ?_
    exact (congrArg Draft.document (Builder.draft_foldl {} steps)).symm.trans
      (Builder.draft_finish _)

end Markup
end HtmlCompose
