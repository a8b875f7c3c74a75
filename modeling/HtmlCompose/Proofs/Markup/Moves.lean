/-
# Moving trees from one place to another

Replacing a node by children of another node moves them one after another, and each move
changes three records: that of the new parent, that of the old one, and that of the moved
node.  `Replaces` is what all moves together do, told for each link: the moved nodes come
to stand where the replaced one stood, their old parent keeps its other children, and
nothing else is touched.

For trees in rows this means that the moved trees are a row in the new place
(`Row.replace`), and that what was not moved is a row in the old one (`Row.leave`).
-/
import HtmlCompose.Proofs.Markup.Row
import HtmlCompose.Proofs.Markup.Walks

namespace HtmlCompose
namespace Markup
namespace Document

variable {d d' : Document} {p q s h : Handle}

/-! ### The links of one edit -/

/-- Nodes with equal fields are equal. -/
theorem node_ext {n m : Node} (hcontent : n.content = m.content) (hparent : n.parent = m.parent)
    (hchildren : n.children = m.children) : n = m := by
  cases n
  cases m
  simp_all

/-- Taking out a node changes its parent link and the children of its parent. -/
theorem links_detach (hh : d.parent? h = some p) (hp : p < d.size) (hne : p ≠ h) (x : Handle) :
    (d.detach h).content x = d.content x ∧
      (d.detach h).parent? x = (if x = h then none else d.parent? x) ∧
      (d.detach h).children x =
        if x = p then (d.children p).filter (· != h) else d.children x := by
  by_cases hxp : x = p
  · subst hxp
    have hnode := node_detach_parent hh hp hne
    simp only [content, parent?, children, hnode, if_neg hne, if_true, and_self]
  by_cases hxh : x = h
  · subst hxh
    have hnode : (d.detach x).node x = { d.node x with parent := none } := by
      rw [detach_eq hh, node_modify_of_ne hxp, node_modify_self (lt_of_parent hh)]
    simp only [content, parent?, children, hnode, if_true, if_neg hxp, and_self]
  · simp only [content, parent?, children, node_detach_of_ne hh hxp hxh, if_neg hxh, if_neg hxp,
      and_self]

/-- Linking a node changes its parent link and the children of its new parent. -/
theorem links_link (hp : p < d.size) (hh : h < d.size) (hne : p ≠ h)
    (place : List Handle → List Handle) (x : Handle) :
    (d.link p h place).content x = d.content x ∧
      (d.link p h place).parent? x = (if x = h then some p else d.parent? x) ∧
      (d.link p h place).children x =
        if x = p then place (d.children p) else d.children x :=
  ⟨content_link d p h place x, WellFormed.parent?_link hp hh hne place x,
    WellFormed.children_link hp hh hne place x⟩

/-- Children of one node have been moved to another one, and nothing else has happened. -/
structure Moves (d d' : Document) (p q : Handle) (moved there : List Handle) : Prop where
  size : d'.size = d.size
  content : ∀ x, d'.content x = d.content x
  parent : ∀ x, d'.parent? x = if x ∈ moved then some p else d.parent? x
  there : d'.children p = there
  left : d'.children q = (d.children q).filter (· ∉ moved)
  rest : ∀ x, x ≠ p → x ≠ q → d'.children x = d.children x

/-- **A child of one node is taken out and linked below another one**, at any place among the
children there. -/
theorem moves_link (hh : d.parent? h = some q) (hp : p < d.size) (hq : q < d.size) (hpq : p ≠ q)
    (hph : p ≠ h) (hqh : q ≠ h) (place : List Handle → List Handle) :
    Moves d ((d.detach h).link p h place) p q [h] (place (d.children p)) := by
  have hout := links_detach hh hq hqh
  have hin := links_link (d := d.detach h) (by rwa [size_detach])
    (by rw [size_detach]; exact lt_of_parent hh) hph place
  refine ⟨by rw [size_link, size_detach], fun x => (hin x).1.trans (hout x).1, fun x => ?_, ?_, ?_,
    fun x hxp hxq => ?_⟩
  · rw [(hin x).2.1, (hout x).2.1]
    by_cases hx : x = h <;> simp [hx]
  · rw [(hin p).2.2, if_pos rfl, (hout p).2.2, if_neg hpq]
  · rw [(hin q).2.2, if_neg hpq.symm, (hout q).2.2, if_pos rfl, filter_not_mem_singleton]
  · rw [(hin x).2.2, if_neg hxp, (hout x).2.2, if_neg hxq]

/-- A child of one node is put before a child of another one. -/
theorem moves_insertBefore (hs : d.parent? s = some p) (hh : d.parent? h = some q)
    (hp : p < d.size) (hq : q < d.size) (hsh : s ≠ h) (hpq : p ≠ q) (hph : p ≠ h) (hqh : q ≠ h) :
    Moves d (d.insertBefore s h) p q [h] (placeBefore s h (d.children p)) := by
  have hparent : (d.detach h).parent? s = some p := by
    rw [(links_detach hh hq hqh s).2.1, if_neg hsh, hs]
  rw [insertBefore_eq_move hsh hparent]
  exact moves_link hh hp hq hpq hph hqh _

/-- Children of one node are put before a child of another one. -/
theorem moves_all {before behind moved : List Handle} (hs : d.parent? s = some p)
    (hmoved : ∀ r ∈ moved, d.parent? r = some q) (hp : p < d.size) (hq : q < d.size)
    (hpq : p ≠ q) (hchildren : d.children p = before ++ s :: behind) (hbefore : s ∉ before)
    (hout : s ∉ moved ∧ p ∉ moved ∧ q ∉ moved) (hnodup : moved.Nodup) :
    Moves d (moved.foldl (fun d r => d.insertBefore s r) d) p q moved
      (before ++ moved ++ s :: behind) := by
  induction moved generalizing d before with
  | nil =>
    refine ⟨rfl, fun _ => rfl, fun x => by simp, ?_, by simp, fun _ _ _ => rfl⟩
    rw [List.append_nil]
    exact hchildren
  | cons r moved ih =>
    obtain ⟨hr, hrest⟩ := List.forall_mem_cons.1 hmoved
    simp only [List.mem_cons, not_or] at hout
    obtain ⟨⟨hsr, hsm⟩, ⟨hpr, hpm⟩, hqr, hqm⟩ := hout
    obtain ⟨hrm, hnodup⟩ := List.nodup_cons.1 hnodup
    have hone := moves_insertBefore hs hr hp hq hsr hpq hpr hqr
    have hparent : ∀ x, x ≠ r → (d.insertBefore s r).parent? x = d.parent? x := fun x hx => by
      rw [hone.parent, if_neg (by simpa using hx)]
    have hthere : (d.insertBefore s r).children p = (before ++ [r]) ++ s :: behind := by
      rw [hone.there, hchildren, placeBefore_append hbefore, List.append_assoc]
      rfl
    have hmore := ih ((hparent s hsr).trans hs)
      (fun x hx => (hparent x (fun heq => hrm (heq ▸ hx))).trans (hrest x hx))
      (hp.trans_eq hone.size.symm) (hq.trans_eq hone.size.symm) hthere
      (by simpa using ⟨hbefore, hsr⟩) ⟨hsm, hpm, hqm⟩ hnodup
    rw [List.foldl_cons]
    refine ⟨hmore.size.trans hone.size, fun x => (hmore.content x).trans (hone.content x),
      fun x => ?_, ?_, ?_, fun x hxp hxq => (hmore.rest x hxp hxq).trans (hone.rest x hxp hxq)⟩
    · rw [hmore.parent, hone.parent]
      by_cases hx : x = r <;> simp [hx]
    · rw [hmore.there, List.append_assoc before, List.singleton_append]
    · rw [hmore.left, hone.left, List.filter_filter]
      exact List.filter_congr fun x _ => by simp [Bool.and_comm]

/-- A child of a node has been replaced by children of another node, and nothing else has
happened. -/
structure Replaces (d d' : Document) (p q s : Handle) (moved there : List Handle) : Prop where
  size : d'.size = d.size
  content : ∀ x, d'.content x = d.content x
  parent : ∀ x, d'.parent? x = if x = s then none else if x ∈ moved then some p else d.parent? x
  there : d'.children p = there
  left : d'.children q = (d.children q).filter (· ∉ moved)
  rest : ∀ x, x ≠ p → x ≠ q → d'.children x = d.children x

/-- **Replacing a node by children of another one moves them to its place.**  The other node may
be the replaced one itself. -/
theorem replaces_replaceWith {before behind moved : List Handle} (hs : d.parent? s = some p)
    (hmoved : ∀ r ∈ moved, d.parent? r = some q) (hp : p < d.size) (hq : q < d.size)
    (hpq : p ≠ q) (hps : p ≠ s) (hchildren : d.children p = before ++ s :: behind)
    (hbefore : s ∉ before) (hbehind : s ∉ behind) (hout : s ∉ moved ∧ p ∉ moved ∧ q ∉ moved)
    (hnodup : moved.Nodup) :
    Replaces d (d.replaceWith s moved) p q s moved (before ++ moved ++ behind) := by
  have hall := moves_all hs hmoved hp hq hpq hchildren hbefore hout hnodup
  rw [replaceWith]
  generalize moved.foldl (fun d r => d.insertBefore s r) d = e at hall
  have hparent : e.parent? s = some p := by rw [hall.parent, if_neg hout.1, hs]
  have hdetach := links_detach hparent (hp.trans_eq hall.size.symm) hps
  refine ⟨by rw [size_detach, hall.size], fun x => (hdetach x).1.trans (hall.content x),
    fun x => by rw [(hdetach x).2.1, hall.parent], ?_, ?_, fun x hxp hxq => ?_⟩
  · rw [(hdetach p).2.2, if_pos rfl, hall.there,
      filter_ne_append (by simp [hbefore, hout.1]) hbehind]
  · rw [(hdetach q).2.2, if_neg hpq.symm, hall.left]
  · rw [(hdetach x).2.2, if_neg hxp, hall.rest x hxp hxq]

namespace Replaces

variable {moved there : List Handle}

/-- A node that is neither moved nor replaced nor one of the two parents stays as it is. -/
theorem node_eq (h : Replaces d d' p q s moved there) {x : Handle} (hp : x ≠ p) (hq : x ≠ q)
    (hs : x ≠ s) (hmoved : x ∉ moved) : d'.node x = d.node x :=
  node_ext (h.content x) (by rw [← parent?, ← parent?, h.parent, if_neg hs, if_neg hmoved])
    (h.rest x hp hq)

end Replaces

/-- Trees in a row are shown below another parent once their topmost nodes have that parent. -/
theorem ShowsAll.reparent {parent parent' : Option Handle} {Ps : List Placed}
    (hPs : d.ShowsAll parent Ps) (hnodup : (Placed.allHandles Ps).Nodup)
    (hsize : d.size ≤ d'.size)
    (htop : ∀ x ∈ Ps.map Placed.handle, d'.node x = { d.node x with parent := parent' })
    (hrest : ∀ x ∈ Placed.allHandles Ps, x ∉ Ps.map Placed.handle → d'.node x = d.node x) :
    d'.ShowsAll parent' Ps := by
  induction Ps with
  | nil => trivial
  | cons P Ps ih =>
    rw [Placed.allHandles, List.nodup_append'] at hnodup
    obtain ⟨hP, hrestNodup, hdisjoint⟩ := hnodup
    refine ⟨hPs.1.reparent hP hsize (htop _ List.mem_cons_self) fun x hx hxP => ?_,
      ih hPs.2 hrestNodup (fun x hx => htop x (List.mem_cons_of_mem _ hx)) fun x hx hxtop => ?_⟩
    · refine hrest x (List.mem_append_left _ hx) ?_
      rw [List.map_cons, List.mem_cons, not_or]
      exact ⟨hxP, fun hmem => hdisjoint hx (Placed.map_handle_subset Ps hmem)⟩
    · refine hrest x (List.mem_append_right _ hx) ?_
      rw [List.map_cons, List.mem_cons, not_or]
      exact ⟨fun heq => hdisjoint (heq ▸ P.handle_mem) hx, hxtop⟩

end Document

/-! ### Rows -/

namespace Row

open Placed

variable {d d' : Document} {p q : Handle} {before behind : List Handle} {S : Placed}
  {Cs : List Placed}

/-- A row stays as it is when the nodes of its trees and its parent do. -/
theorem frame {Ps : List Placed} (hrow : Row d p before Ps behind) (hsize : d.size ≤ d'.size)
    (hnode : ∀ x, x = p ∨ x ∈ allHandles Ps → d'.node x = d.node x) : Row d' p before Ps behind :=
  ⟨hrow.parent.trans_le hsize, (congrArg Node.children (hnode p (.inl rfl))).trans hrow.children,
    hrow.shows.frame hsize fun x hx => hnode x (.inr hx), hrow.nodup, hrow.apart,
    fun x hx => (hrow.known x hx).trans_le hsize⟩

/-- **Replacing a tree of a row by trees below another node makes a row of them where it stood.** -/
theorem replace (hrow : Row d p before [S] behind) (hq : q < d.size) (hpq : p ≠ q)
    (hCs : d.ShowsAll (some q) Cs) (hnodup : (allHandles Cs).Nodup)
    (hapart : ∀ x ∈ allHandles Cs, x ≠ p ∧ x ∉ before ∧ x ∉ behind)
    (hout : ∀ x ∈ allHandles Cs, x ≠ q ∧ x ≠ S.handle) :
    Document.Replaces d (d.replaceWith S.handle (Cs.map handle)) p q S.handle (Cs.map handle)
        (before ++ Cs.map handle ++ behind) ∧
      Row (d.replaceWith S.handle (Cs.map handle)) p before Cs behind := by
  have hchildren : d.children p = before ++ S.handle :: behind := by simpa using hrow.children
  have htop : ∀ x ∈ Cs.map handle, x ≠ p ∧ x ≠ q ∧ x ≠ S.handle := fun x hx =>
    ⟨(hapart x (map_handle_subset Cs hx)).1, hout x (map_handle_subset Cs hx)⟩
  have hrep := Document.replaces_replaceWith hrow.shows.1.parent_eq
    (fun _ hr => hCs.parent_of_mem hr) hrow.parent hq hpq hrow.handle_not_mem.1.symm hchildren
    hrow.handle_not_mem.2.1 hrow.handle_not_mem.2.2
    ⟨fun hmem => (htop _ hmem).2.2 rfl, fun hmem => (htop _ hmem).1 rfl,
      fun hmem => (htop _ hmem).2.1 rfl⟩ ((map_handle_sublist Cs).nodup hnodup)
  refine ⟨hrep, hrow.parent.trans_eq hrep.size.symm, hrep.there, ?_, hnodup, hapart,
    fun x hx => (hrow.known x hx).trans_eq hrep.size.symm⟩
  refine hCs.reparent hnodup hrep.size.ge (fun x hx => ?_) fun x hx hxtop => ?_
  · obtain ⟨hxp, hxq, hxS⟩ := htop x hx
    have hparent := hrep.parent x
    rw [if_neg hxS, if_pos hx] at hparent
    exact Document.node_ext (hrep.content x) hparent (hrep.rest x hxp hxq)
  · exact hrep.node_eq (hapart x hx).1 (hout x hx).1 (hout x hx).2 hxtop

/-- What is not moved stays a row where it was. -/
theorem leave {l₁ l₂ : List Placed} {there : List Handle} {s : Handle}
    (hrow : Row d q [] (l₁ ++ Cs ++ l₂) [])
    (hrep : Document.Replaces d d' p q s (Cs.map handle) there)
    (hout : p ∉ allHandles (l₁ ++ l₂) ∧ s ∉ allHandles (l₁ ++ l₂)) :
    Row d' q [] (l₁ ++ l₂) [] := by
  have hperm : (allHandles (l₁ ++ Cs ++ l₂)).Perm (allHandles Cs ++ allHandles (l₁ ++ l₂)) := by
    simp only [allHandles_append, List.append_assoc]
    exact List.perm_append_comm_assoc _ _ _
  obtain ⟨-, hnodup, hdisjoint⟩ := List.nodup_append'.1 (hperm.nodup_iff.1 hrow.nodup)
  have hkept : ∀ x ∈ (l₁ ++ l₂).map handle, x ∉ Cs.map handle := fun x hx hmem =>
    hdisjoint (map_handle_subset Cs hmem) (map_handle_subset _ hx)
  refine ⟨hrow.parent.trans_eq hrep.size.symm, ?_, ?_, hnodup, fun x hx => ?_, by simp⟩
  · rw [List.map_append, List.forall_mem_append] at hkept
    rw [hrep.left, hrow.children_eq]
    simp only [List.map_append, List.filter_append, List.nil_append, List.append_nil]
    rw [List.filter_eq_self.2 fun x hx => decide_eq_true (hkept.1 x hx),
      List.filter_eq_self.2 fun x hx => decide_eq_true (hkept.2 x hx),
      List.filter_eq_nil_iff.2 fun x hx => by simpa using hx, List.append_nil]
  · have hshows : d.ShowsAll (some q) (l₁ ++ l₂) := by
      obtain ⟨h₁, h₂⟩ := (d.showsAll_append _ _ _).1 hrow.shows
      exact (d.showsAll_append _ _ _).2 ⟨((d.showsAll_append _ _ _).1 h₁).1, h₂⟩
    refine hshows.frame hrep.size.ge fun x hx => hrep.node_eq ?_ ?_ ?_ fun hmem => ?_
    · exact fun heq => hout.1 (heq ▸ hx)
    · exact (hrow.apart x (hperm.mem_iff.2 (List.mem_append_right _ hx))).1
    · exact fun heq => hout.2 (heq ▸ hx)
    · exact hdisjoint (map_handle_subset Cs hmem) hx
  · have hx' := hrow.apart x (hperm.mem_iff.2 (List.mem_append_right _ hx))
    exact ⟨hx'.1, List.not_mem_nil, List.not_mem_nil⟩

/-- The replaced tree keeps all that is below it, and has no parent. -/
theorem loose (hrow : Row d p before [S] behind) {moved there : List Handle}
    (hrep : Document.Replaces d d' p q S.handle moved there)
    (hout : q ∉ S.handles ∧ ∀ x ∈ moved, x ∉ S.handles) : d'.Shows none S := by
  have hS : d.Shows (some p) S := hrow.shows.1
  have hapart : ∀ x ∈ S.handles, x ≠ p ∧ x ≠ q := fun x hx =>
    ⟨(hrow.apart x (allHandles_singleton S ▸ hx)).1, fun heq => hout.1 (heq ▸ hx)⟩
  refine hS.reparent (allHandles_singleton S ▸ hrow.nodup) hrep.size.ge ?_ fun x hx hxS => ?_
  · obtain ⟨hp, hq⟩ := hapart _ S.handle_mem
    have hparent := hrep.parent S.handle
    rw [if_pos rfl] at hparent
    exact Document.node_ext (hrep.content _) hparent (hrep.rest _ hp hq)
  · obtain ⟨hp, hq⟩ := hapart x hx
    exact hrep.node_eq hp hq hxS fun hmem => hout.2 x hmem hx

end Row

end Markup
end HtmlCompose
