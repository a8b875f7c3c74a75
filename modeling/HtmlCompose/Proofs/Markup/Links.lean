/-
# Parents and children agree after every edit

A document keeps each link twice, as the parent of a child and as a child of a parent, and
each edit changes the two in different steps.  In a *well-formed* document the two agree,
no child is listed twice, and following parents ends (`WellFormed`).  A document has no
nodes but its own, so ids in bounds are part of that (`WellFormed.child_lt`).

Two steps are all that edits are made of, and each is described by what it does to every
node's parent and children:

| step | parents | children |
| --- | --- | --- |
| `detach` a node | it has none | it is left out everywhere |
| `link` a node that has none | it has one | it is put among the children of that one |

`WellFormed.detach` is without condition.  `WellFormed.link` asks that the new parent is
neither the node nor below it: the way up from the parent does not pass the node, so it is
the old way and ends, and every other way up reaches the node or does not (`Ends.relink`).

Replacing a node moves several nodes one after another, any of which may come from below
it.  The way up from the replaced node is what keeps this together: none of the nodes that
are moved is on it, so no move changes it (`Below.of_relink`), and what was allowed for
all of them at the start is still allowed for each when its turn comes.
-/
import HtmlCompose.Proofs.Markup.Edit

namespace HtmlCompose
namespace Markup
namespace Document

/-! ### The way up -/

/-- Following parents from a node ends. -/
inductive Ends (d : Document) : Handle → Prop where
  | top {h : Handle} : d.parent? h = none → Ends d h
  | up {h p : Handle} : d.parent? h = some p → Ends d p → Ends d h

/-- A node is met on the way up from another one. -/
inductive Below (d : Document) : Handle → Handle → Prop where
  | child {h p : Handle} : d.parent? h = some p → Below d h p
  | up {h p a : Handle} : d.parent? h = some p → Below d p a → Below d h a

variable {d d' : Document} {h p x : Handle}

/-- The way up from a child is its parent and the way up from there. -/
theorem below_of_parent (hp : d.parent? h = some p) {a : Handle} :
    d.Below h a ↔ p = a ∨ d.Below p a := by
  constructor
  · rintro (hq | ⟨hq, hbelow⟩)
    · exact .inl (Option.some.inj (hp.symm.trans hq))
    · obtain rfl := Option.some.inj (hp.symm.trans hq)
      exact .inr hbelow
  · rintro (rfl | hbelow)
    · exact .child hp
    · exact .up hp hbelow

/-- From a node without a parent there is no way up. -/
theorem not_below_of_top (htop : d.parent? h = none) (a : Handle) : ¬d.Below h a := by
  rintro (hq | ⟨hq, -⟩) <;> exact absurd (htop.symm.trans hq) (by simp)

/-- The way up goes on from any node that is met. -/
theorem Below.trans_child {a : Handle} (hbelow : d.Below x a) (hp : d.parent? a = some p) :
    d.Below x p := by
  induction hbelow with
  | child hx => exact .up hx (.child hp)
  | up hx _ ih => exact .up hx (ih hp)

/-- A way up that ends does not come back. -/
theorem Ends.not_below_self (hends : d.Ends h) : ¬d.Below h h := by
  induction hends with
  | top htop => exact not_below_of_top htop _
  | @up h p hp _ ih =>
    intro hbelow
    refine ih ?_
    rcases (below_of_parent hp).1 hbelow with rfl | hbelow
    · exact .child hp
    · exact hbelow.trans_child hp

/-- A node that is not on the way up from another one may get another parent without changing
that way. -/
theorem Below.of_relink (hother : ∀ y, y ≠ x → d'.parent? y = d.parent? y) (hx : h ≠ x)
    {a : Handle} (hbelow : d'.Below h a) (hnot : ¬d.Below h x) : d.Below h a := by
  induction hbelow with
  | child hp => exact .child ((hother _ hx).symm.trans hp)
  | @up h p a hp _ ih =>
    have hp' : d.parent? h = some p := (hother h hx).symm.trans hp
    have hpx : p ≠ x := fun heq => hnot (heq ▸ .child hp')
    exact .up hp' (ih hpx fun hbelow => hnot (.up hp' hbelow))

/-- A way up that ends still ends when a node that is not on it gets another parent. -/
theorem Ends.of_relink (hends : d.Ends h) (hother : ∀ y, y ≠ x → d'.parent? y = d.parent? y)
    (hx : h ≠ x) (hnot : ¬d.Below h x) : d'.Ends h := by
  induction hends with
  | top htop => exact .top ((hother _ hx).trans htop)
  | @up h p hp _ ih =>
    have hpx : p ≠ x := fun heq => hnot (heq ▸ .child hp)
    exact .up ((hother h hx).trans hp) (ih hpx fun hbelow => hnot (.up hp hbelow))

/-- Once the way up from a node with another parent ends, every way up does. -/
theorem Ends.relink (hends : d.Ends h) (hother : ∀ y, y ≠ x → d'.parent? y = d.parent? y)
    (hx : d'.Ends x) : d'.Ends h := by
  induction hends with
  | @top h htop =>
    by_cases heq : h = x
    · exact heq ▸ hx
    · exact .top ((hother h heq).trans htop)
  | @up h p hp _ ih =>
    by_cases heq : h = x
    · exact heq ▸ hx
    · exact .up ((hother h heq).trans hp) ih

/-- Whether the way up ends is a matter of the parents alone. -/
theorem Ends.congr (hends : d.Ends h) (hparent : ∀ y, d'.parent? y = d.parent? y) :
    d'.Ends h := by
  induction hends with
  | top htop => exact .top ((hparent _).trans htop)
  | up hp _ ih => exact .up ((hparent _).trans hp) ih

/-! ### Well-formed documents -/

/-- Parents and children agree, no child is listed twice, and there is no cycle. -/
structure WellFormed (d : Document) : Prop where
  linked : ∀ p c, c ∈ d.children p ↔ d.parent? c = some p
  nodup : ∀ p, (d.children p).Nodup
  ends : ∀ h, d.Ends h

/-- Behind the last node there is nothing: no parent, no children. -/
theorem node_of_le (hh : d.size ≤ h) : d.node h = ⟨.fragment, none, []⟩ := by
  rw [node, Array.getD_eq_getD_getElem?, Array.getElem?_eq_none hh]
  rfl

/-- A node with a parent is one of the document. -/
theorem lt_of_parent (hp : d.parent? h = some p) : h < d.size := by
  refine Nat.lt_of_not_le fun hle => ?_
  rw [parent?, node_of_le hle] at hp
  cases hp

namespace WellFormed

/-- A child is a node of the document. -/
theorem child_lt (hd : d.WellFormed) {c : Handle} (hc : c ∈ d.children p) : c < d.size :=
  lt_of_parent ((hd.linked p c).1 hc)

/-- So is a parent. -/
theorem parent_lt (hd : d.WellFormed) (hp : d.parent? h = some p) : p < d.size := by
  have hmem : h ∈ d.children p := (hd.linked p h).2 hp
  refine Nat.lt_of_not_le fun hle => ?_
  rw [children, node_of_le hle] at hmem
  exact absurd hmem List.not_mem_nil

/-- A document with the same links is as well-formed. -/
theorem of_links (hd : d.WellFormed) (hparent : ∀ x, d'.parent? x = d.parent? x)
    (hchildren : ∀ x, d'.children x = d.children x) : d'.WellFormed where
  linked p c := by rw [hchildren, hparent, hd.linked]
  nodup p := by rw [hchildren]; exact hd.nodup p
  ends h := (hd.ends h).congr hparent

end WellFormed

/-- The empty document is well-formed. -/
theorem wellFormed_empty : empty.WellFormed := by
  have hnode : ∀ x, empty.node x = ⟨.fragment, none, []⟩ := fun x => by
    rcases x with _ | x <;> rfl
  refine ⟨fun p c => ?_, fun p => ?_, fun h => .top ?_⟩
  · simp [children, parent?, hnode]
  · simp [children, hnode]
  · simp [parent?, hnode]

/-! ### The steps of edits -/

/-- Creating a node changes no link. -/
theorem node_create (d : Document) (c : Content) (x : Handle) :
    (d.create c).1.parent? x = d.parent? x ∧ (d.create c).1.children x = d.children x := by
  rcases Nat.lt_trichotomy x d.size with hx | rfl | hx
  · simp only [parent?, children, node_create_of_lt hx, and_self]
  · simp only [parent?, children, node_create_self, node_of_le (Nat.le_refl d.size), and_self]
  · have hx' : (d.create c).1.size ≤ x := by rw [size_create]; exact hx
    simp only [parent?, children, node_of_le hx', node_of_le hx.le, and_self]

/-- Nor does setting a content. -/
theorem node_setContent (d : Document) (h : Handle) (c : Content) (x : Handle) :
    (d.setContent h c).parent? x = d.parent? x ∧ (d.setContent h c).children x = d.children x := by
  by_cases hx : x = h
  · subst hx
    by_cases hlt : x < d.size
    · simp only [parent?, children, node_setContent_self hlt, and_self]
    · have hle : (d.setContent x c).size ≤ x := by
        rw [size_setContent]
        exact Nat.le_of_not_lt hlt
      simp only [parent?, children, node_of_le hle, node_of_le (Nat.le_of_not_lt hlt), and_self]
  · simp only [parent?, children, node_setContent_of_ne hx, and_self]

/-- Edits of links leave all contents as they are. -/
theorem content_modify (d : Document) (h : Handle) {f : Node → Node}
    (hf : ∀ n, (f n).content = n.content) (x : Handle) : (d.modify h f).content x = d.content x := by
  by_cases hx : x = h
  · subst hx
    by_cases hlt : x < d.size
    · rw [content, node_modify_self hlt, hf]
      rfl
    · have hle : d.size ≤ x := Nat.le_of_not_lt hlt
      rw [content, content, node_of_le hle, node_of_le (by rwa [size_modify])]
  · rw [content, node_modify_of_ne hx]
    rfl

/-- Taking out a node leaves the contents. -/
theorem content_detach (d : Document) (h x : Handle) : (d.detach h).content x = d.content x := by
  rcases hp : d.parent? h with _ | p
  · rw [detach_eq_self hp]
  · rw [detach_eq hp, content_modify, content_modify] <;> exact fun _ => rfl

/-- Linking a node leaves the contents. -/
theorem content_link (d : Document) (p h : Handle) (place : List Handle → List Handle)
    (x : Handle) : (d.link p h place).content x = d.content x := by
  rw [link, content_modify, content_modify] <;> exact fun _ => rfl

namespace WellFormed

/-- A new node leaves the document well-formed. -/
theorem create (hd : d.WellFormed) (c : Content) : (d.create c).1.WellFormed :=
  hd.of_links (fun x => (node_create d c x).1) fun x => (node_create d c x).2

/-- A new content leaves the document well-formed. -/
theorem setContent (hd : d.WellFormed) (h : Handle) (c : Content) :
    (d.setContent h c).WellFormed :=
  hd.of_links (fun x => (node_setContent d h c x).1) fun x => (node_setContent d h c x).2

/-- A node that is taken out has no parent, and all others keep theirs. -/
theorem parent?_detach (hd : d.WellFormed) (h x : Handle) :
    (d.detach h).parent? x = if x = h then none else d.parent? x := by
  rcases hp : d.parent? h with _ | p
  · rw [detach_eq_self hp]
    split
    · next hx => rw [hx, hp]
    · rfl
  have hph : p ≠ h := fun heq => (hd.ends h).not_below_self (.child (heq ▸ hp))
  have hh : h < d.size := lt_of_parent hp
  split
  · next hx =>
    rw [parent?, hx, detach_eq hp, node_modify_of_ne hph.symm, node_modify_self hh]
  · next hx =>
    by_cases hxp : x = p
    · rw [parent?, hxp, node_detach_parent hp (hd.parent_lt hp) hph]
      rfl
    · rw [parent?, node_detach_of_ne hp hxp hx]
      rfl

/-- A node that is taken out is among no children any more. -/
theorem children_detach (hd : d.WellFormed) (h x : Handle) :
    (d.detach h).children x = (d.children x).filter (· != h) := by
  have hkeep : d.parent? h ≠ some x → (d.children x).filter (· != h) = d.children x := by
    intro hnot
    refine List.filter_eq_self.2 fun c hc => ?_
    rw [bne_iff_ne]
    rintro rfl
    exact hnot ((hd.linked x c).1 hc)
  rcases hp : d.parent? h with _ | p
  · rw [detach_eq_self hp, hkeep (by simp [hp])]
  have hph : p ≠ h := fun heq => (hd.ends h).not_below_self (.child (heq ▸ hp))
  by_cases hxp : x = p
  · rw [children, hxp, node_detach_parent hp (hd.parent_lt hp) hph]
    rfl
  · rw [hkeep (by simpa [hp] using Ne.symm hxp)]
    by_cases hx : x = h
    · rw [children, hx, detach_eq hp, node_modify_of_ne hph.symm,
        node_modify_self (lt_of_parent hp)]
      rfl
    · rw [children, node_detach_of_ne hp hxp hx]
      rfl

/-- **Taking a node out keeps a document well-formed.** -/
theorem detach (hd : d.WellFormed) (h : Handle) : (d.detach h).WellFormed where
  linked p c := by
    rw [hd.children_detach, hd.parent?_detach, List.mem_filter, bne_iff_ne, hd.linked]
    split
    · next hc => simp [hc]
    · next hc => simp [hc]
  nodup p := by
    rw [hd.children_detach]
    exact (hd.nodup p).filter _
  ends x := by
    refine (hd.ends x).relink (x := h) (fun y hy => ?_) (.top ?_)
    · rw [hd.parent?_detach, if_neg hy]
    · rw [hd.parent?_detach, if_pos rfl]

/-- The parent of a linked node is the one that it was linked below; all others have their old
ones. -/
theorem parent?_link (hp : p < d.size) (hh : h < d.size) (hne : p ≠ h)
    (place : List Handle → List Handle) (x : Handle) :
    (d.link p h place).parent? x = if x = h then some p else d.parent? x := by
  split
  · next hx => rw [parent?, hx, node_link_self hh hne]
  · next hx =>
    by_cases hxp : x = p
    · rw [parent?, hxp, node_link_parent hp hne]
      rfl
    · rw [parent?, node_link_of_ne hxp hx]
      rfl

/-- The children of the new parent are placed anew; all other nodes have their old ones. -/
theorem children_link (hp : p < d.size) (hh : h < d.size) (hne : p ≠ h)
    (place : List Handle → List Handle) (x : Handle) :
    (d.link p h place).children x = if x = p then place (d.children p) else d.children x := by
  split
  · next hx =>
    rw [children, hx, node_link_parent hp hne]
    rfl
  · next hx =>
    by_cases hxh : x = h
    · rw [children, hxh, node_link_self hh hne]
      rfl
    · rw [children, node_link_of_ne hx hxh]
      rfl

/-- **Linking a node that has no parent keeps a document well-formed**, unless its new parent is
the node itself or lies below it. -/
theorem link (hd : d.WellFormed) (hp : p < d.size) (hh : h < d.size)
    (hfree : d.parent? h = none) (hne : p ≠ h) (hbelow : ¬d.Below p h)
    {place : List Handle → List Handle}
    (hplace : (place (d.children p)).Perm (h :: d.children p)) :
    (d.link p h place).WellFormed := by
  have hparent := parent?_link hp hh hne place
  have hchildren := children_link hp hh hne place
  have hnew : ∀ q, h ∉ d.children q := fun q hmem => by
    rw [hd.linked, hfree] at hmem
    cases hmem
  refine ⟨fun q c => ?_, fun q => ?_, fun x => ?_⟩
  · rw [hchildren, hparent]
    by_cases hq : q = p
    · subst hq
      rw [if_pos rfl, hplace.mem_iff, List.mem_cons, hd.linked]
      by_cases hc : c = h <;> simp [hc]
    · rw [if_neg hq, hd.linked]
      by_cases hc : c = h
      · simp [hc, hfree, Ne.symm hq]
      · simp [hc]
  · rw [hchildren]
    split
    · exact hplace.nodup_iff.2 (List.nodup_cons.2 ⟨hnew p, hd.nodup p⟩)
    · exact hd.nodup q
  · have hother : ∀ y, y ≠ h → (d.link p h place).parent? y = d.parent? y := fun y hy => by
      rw [hparent, if_neg hy]
    refine (hd.ends x).relink hother (.up (p := p) ?_ ((hd.ends p).of_relink hother hne hbelow))
    rw [hparent, if_pos rfl]

end WellFormed

/-! ### Edits -/

/-- A way up without the node is a way up in the old document. -/
theorem Below.of_detach (hd : d.WellFormed) {a : Handle} (hbelow : (d.detach h).Below x a) :
    d.Below x a := by
  have hstep : ∀ {y p : Handle}, (d.detach h).parent? y = some p → d.parent? y = some p := by
    intro y p hp
    rw [hd.parent?_detach] at hp
    split at hp
    · cases hp
    · exact hp
  induction hbelow with
  | child hp => exact .child (hstep hp)
  | up hp _ ih => exact .up (hstep hp) ih

/-- Leaving out one handle, said in two ways. -/
theorem filter_not_mem_singleton (h : Handle) (l : List Handle) :
    l.filter (· ∉ [h]) = l.filter (· != h) :=
  List.filter_congr fun x _ => by by_cases hx : x = h <;> simp [hx]

/-- Without a place to go, the node is only taken out. -/
theorem insertBefore_eq_detach {reference : Handle} (hne : reference ≠ h)
    (hp : (d.detach h).parent? reference = none) : d.insertBefore reference h = d.detach h := by
  rw [insertBefore, if_neg hne]
  simp only [hp]

/-- With a place to go, inserting is taking out and linking there. -/
theorem insertBefore_eq_move {reference : Handle} (hne : reference ≠ h)
    (hp : (d.detach h).parent? reference = some p) :
    d.insertBefore reference h = (d.detach h).link p h (placeBefore reference h) := by
  rw [insertBefore, if_neg hne]
  simp only [hp]

/-- Placing a handle adds just that handle. -/
theorem perm_placeBefore (reference h : Handle) (l : List Handle) :
    (placeBefore reference h l).Perm (h :: l) := by
  rw [placeBefore]
  refine List.perm_middle.trans ?_
  rw [List.takeWhile_append_dropWhile]

namespace WellFormed

/-- Moving a node under a parent keeps a document well-formed. -/
theorem move (hd : d.WellFormed) (hp : p < d.size) (hh : h < d.size) (hne : p ≠ h)
    (hbelow : ¬d.Below p h) {place : List Handle → List Handle}
    (hplace : ∀ l, (place l).Perm (h :: l)) : ((d.detach h).link p h place).WellFormed := by
  refine (hd.detach h).link (by rwa [size_detach]) (by rwa [size_detach]) ?_ hne
    (fun hb => hbelow (hb.of_detach hd)) (hplace _)
  rw [hd.parent?_detach, if_pos rfl]

/-- Appending leaves the document well-formed, unless it makes a cycle. -/
theorem append (hd : d.WellFormed) (hp : p < d.size) (hh : h < d.size) (hne : p ≠ h)
    (hbelow : ¬d.Below p h) : (d.append p h).WellFormed :=
  hd.move hp hh hne hbelow fun l => List.perm_append_singleton h l

/-- So does prepending. -/
theorem prepend (hd : d.WellFormed) (hp : p < d.size) (hh : h < d.size) (hne : p ≠ h)
    (hbelow : ¬d.Below p h) : (d.prepend p h).WellFormed :=
  hd.move hp hh hne hbelow fun _ => .refl _

/-- Putting a node before another one changes the parent of that node only. -/
theorem parent?_insertBefore (hd : d.WellFormed) {reference : Handle} (hh : h < d.size)
    (hbelow : reference ≠ h → ¬d.Below reference h) (hx : x ≠ h) :
    (d.insertBefore reference h).parent? x = d.parent? x := by
  rw [insertBefore]
  split
  · rfl
  next href =>
    have hdetach : (d.detach h).parent? x = d.parent? x := by rw [hd.parent?_detach, if_neg hx]
    dsimp only
    split
    · exact hdetach
    · next p hp =>
      rw [hd.parent?_detach, if_neg href] at hp
      have hne : p ≠ h := fun heq => hbelow href (heq ▸ .child hp)
      rw [parent?_link (by rw [size_detach]; exact hd.parent_lt hp) (by rwa [size_detach]) hne,
        if_neg hx, hdetach]

/-- Inserting leaves the document well-formed, unless it makes a cycle.  A reference that is the
node itself, or one without a parent, does no harm. -/
theorem insertBefore (hd : d.WellFormed) {reference : Handle} (hh : h < d.size)
    (hbelow : reference ≠ h → ¬d.Below reference h) : (d.insertBefore reference h).WellFormed := by
  rw [Document.insertBefore]
  split
  · exact hd
  next href =>
    dsimp only
    split
    · exact hd.detach h
    · next p hp =>
      rw [hd.parent?_detach, if_neg href] at hp
      exact hd.move (hd.parent_lt hp) hh (fun heq => hbelow href (heq ▸ .child hp))
        (fun hb => hbelow href (.up hp hb)) (perm_placeBefore reference h)

end WellFormed

/-- Inserting makes no nodes. -/
theorem size_insertBefore (d : Document) (reference h : Handle) :
    (d.insertBefore reference h).size = d.size := by
  rw [insertBefore]
  split
  · rfl
  dsimp only
  split
  · exact size_detach d h
  · rw [size_link, size_detach]

namespace WellFormed

/-- **Replacing a node keeps a document well-formed**, unless one of the nodes in its place is
another one that the node lies below. -/
theorem replaceWith (hd : d.WellFormed) {rs : List Handle}
    (hrs : ∀ r ∈ rs, r < d.size ∧ (h ≠ r → ¬d.Below h r)) : (d.replaceWith h rs).WellFormed := by
  rw [Document.replaceWith]
  induction rs generalizing d with
  | nil => exact hd.detach h
  | cons r rs ih =>
    obtain ⟨⟨hr, hbelow⟩, hrest⟩ := List.forall_mem_cons.1 hrs
    refine ih (hd.insertBefore hr hbelow) fun s hs => ⟨?_, fun hne hb => ?_⟩
    · rw [size_insertBefore]
      exact (hrest s hs).1
    · replace hb : (d.insertBefore h r).Below h s := hb
      by_cases hhr : h = r
      · have hsame : d.insertBefore h r = d := if_pos hhr
        rw [hsame] at hb
        exact (hrest s hs).2 hne hb
      · exact (hrest s hs).2 hne
          (hb.of_relink (fun y hy => hd.parent?_insertBefore hr hbelow hy) hhr (hbelow hhr))

mutual
/-- Copying a tree into a document keeps it well-formed. -/
theorem adopt {d : Document} (hd : d.WellFormed) (t : Tree) : (d.adopt t).1.WellFormed := by
  obtain ⟨c, kids⟩ := t
  rw [Document.adopt]
  exact (hd.create c).adoptInto (by rw [size_create]; exact Nat.lt_succ_self _) kids

/-- Copies of trees below a node leave the document well-formed. -/
theorem adoptInto {d : Document} {p : Handle} (hd : d.WellFormed) (hp : p < d.size)
    (ts : List Tree) : (d.adoptInto p ts).WellFormed := by
  match ts with
  | [] =>
    rw [Document.adoptInto]
    exact hd
  | t :: ts =>
    obtain ⟨P, -, hhandle, hshows, hfresh, hframe⟩ := d.adopt_spec t
    have hP : d.size ≤ P.handle := hfresh.le P.handle_mem
    have hsize : d.size ≤ (d.adopt t).1.size := hfresh.size ▸ Nat.le_add_right _ _
    have hpP : p ≠ P.handle := (hp.trans_le hP).ne
    rw [adoptInto_cons, hhandle]
    -- from an old node the way up passes old nodes only
    have hold : ∀ {x a}, (d.adopt t).1.Below x a → x < d.size → a < d.size := by
      intro x a hbelow
      induction hbelow with
      | child hq =>
        intro hx
        rw [parent?, hframe _ hx] at hq
        exact hd.parent_lt hq
      | up hq _ ih =>
        intro hx
        rw [parent?, hframe _ hx] at hq
        exact ih (hd.parent_lt hq)
    have happend := (hd.adopt t).append (hp.trans_le hsize) (hshows.lt _ P.handle_mem) hpP
      fun hbelow => absurd (hold hbelow hp) (Nat.not_lt.2 hP)
    refine happend.adoptInto ?_ ts
    rw [append_eq_link hshows.parent_eq, size_link]
    exact hp.trans_le hsize
end

end WellFormed

/-- A document made from trees is well-formed. -/
theorem wellFormed_ofForest (f : Forest) : (ofForest f).WellFormed :=
  wellFormed_empty.adoptInto (show 0 < 1 from Nat.one_pos) f

/-- A parsed document is well-formed. -/
theorem wellFormed_of_parse {source : String} (hparse : parse source = .ok d) : d.WellFormed := by
  obtain ⟨f, -, rfl⟩ := parse_eq_ok_iff.1 hparse
  exact wellFormed_ofForest f

/-! ### Histories of edits -/

/-- One edit of a document. -/
inductive Edit where
  | create (c : Content)
  | append (parent h : Handle)
  | prepend (parent h : Handle)
  | insertBefore (reference h : Handle)
  | replaceWith (h : Handle) (replacements : List Handle)
  | detach (h : Handle)
  | cloneSubtree (h : Handle)
  /-- a copy of a node of another document -/
  | adopt (other : Document) (h : Handle)
  /-- other attributes, or another text -/
  | setContent (h : Handle) (c : Content)

namespace Edit

/-- The document after an edit. -/
def apply (d : Document) : Edit → Document
  | create c => (d.create c).1
  | append p h => d.append p h
  | prepend p h => d.prepend p h
  | insertBefore reference h => d.insertBefore reference h
  | replaceWith h rs => d.replaceWith h rs
  | detach h => d.detach h
  | cloneSubtree h => (d.cloneSubtree h).1
  | adopt other h => (d.adopt (other.tree h)).1
  | setContent h c => d.setContent h c

/-- An edit names nodes of the document, and puts no node under itself or below itself.  A node
that is put before another one comes under the parent of that one, so it must not be what the
other one lies below. -/
def Allowed (d : Document) : Edit → Prop
  | append p h | prepend p h => p < d.size ∧ h < d.size ∧ p ≠ h ∧ ¬d.Below p h
  | insertBefore reference h =>
    reference < d.size ∧ h < d.size ∧ (reference ≠ h → ¬d.Below reference h)
  | replaceWith h rs => h < d.size ∧ ∀ r ∈ rs, r < d.size ∧ (h ≠ r → ¬d.Below h r)
  | detach h | cloneSubtree h | setContent h _ => h < d.size
  | create _ | adopt _ _ => True

/-- **An allowed edit keeps a document well-formed.** -/
theorem wellFormed_apply {d : Document} (hd : d.WellFormed) {e : Edit} (he : e.Allowed d) :
    (e.apply d).WellFormed := by
  cases e with
  | create c => exact hd.create c
  | append p h => exact hd.append he.1 he.2.1 he.2.2.1 he.2.2.2
  | prepend p h => exact hd.prepend he.1 he.2.1 he.2.2.1 he.2.2.2
  | insertBefore reference h => exact hd.insertBefore he.2.1 he.2.2
  | replaceWith h rs => exact hd.replaceWith he.2
  | detach h => exact hd.detach h
  | cloneSubtree h => exact hd.adopt _
  | adopt other h => exact hd.adopt _
  | setContent h c => exact hd.setContent h c

end Edit

/-- A document that allowed edits lead to, from an empty or a parsed one. -/
inductive Reachable : Document → Prop where
  | empty : Reachable empty
  | parsed {source : String} {d : Document} : parse source = .ok d → Reachable d
  | edited {d : Document} {e : Edit} : Reachable d → e.Allowed d → Reachable (e.apply d)

/-- Every document that operations lead to is well-formed. -/
theorem Reachable.wellFormed {d : Document} (h : d.Reachable) : d.WellFormed := by
  induction h with
  | empty => exact wellFormed_empty
  | parsed hparse => exact wellFormed_of_parse hparse
  | edited _ he ih => exact Edit.wellFormed_apply ih he

/-- **The nodes stay a forest.**  Whatever allowed edits have been made, every stored handle is one
of the document, a node is among the children of another one exactly if that one is its parent, no
node is listed twice, and following parents ends. -/
theorem reachable_forest {d : Document} (hd : d.Reachable) :
    (∀ h, (∀ p, d.parent? h = some p → p < d.size) ∧ ∀ c ∈ d.children h, c < d.size) ∧
      (∀ p c, c ∈ d.children p ↔ d.parent? c = some p) ∧
      (∀ p, (d.children p).Nodup) ∧ ∀ h, d.Ends h :=
  have hwell := hd.wellFormed
  ⟨fun _ => ⟨fun _ => hwell.parent_lt, fun _ => hwell.child_lt⟩, hwell.linked, hwell.nodup,
    hwell.ends⟩

/-- The hypothesis is satisfiable: a node of a parsed document is replaced by its own children, one
of them given twice, and by itself. -/
theorem reachable_forest_replaced :
    ∃ d, parse "<p><b></b><i></i></p>" = .ok d ∧ (d.replaceWith 1 [3, 2, 3, 1]).Reachable ∧
      (d.replaceWith 1 [3, 2, 3, 1]).children 0 = [2, 3] ∧
      ∀ h, (d.replaceWith 1 [3, 2, 3, 1]).Ends h := by
  have hparsed : (parse "<p><b></b><i></i></p>").toOption.any (fun d =>
      d.size == 4 && d.parent? 0 == none && d.parent? 1 == some 0 &&
        (d.replaceWith 1 [3, 2, 3, 1]).children 0 == [2, 3]) = true := by decide +kernel
  rcases hd : parse "<p><b></b><i></i></p>" with fault | d <;> rw [hd] at hparsed
  · cases hparsed
  simp only [Except.toOption, Option.any_some, Bool.and_eq_true, beq_iff_eq] at hparsed
  obtain ⟨⟨⟨hsize, htop⟩, hparent⟩, hchildren⟩ := hparsed
  have hallowed : (Edit.replaceWith 1 [3, 2, 3, 1]).Allowed d := by
    have hbelow : ∀ r, r ≠ 0 → ¬d.Below 1 r := fun r hr hb =>
      ((below_of_parent hparent).1 hb).elim (fun h => hr h.symm) (not_below_of_top htop r)
    simp [Edit.Allowed, hsize, hbelow]
  have hreachable : ((Edit.replaceWith 1 [3, 2, 3, 1]).apply d).Reachable :=
    .edited (.parsed hd) hallowed
  exact ⟨d, rfl, hreachable, hchildren, (reachable_forest hreachable).2.2.2⟩

end Document
end Markup
end HtmlCompose
