/-
# Trees in a row below a node

An edit of a document works at one place: some trees in a row below a parent, with
further children of the parent before and behind them.  `Row d p before Ps behind` says
that the trees `Ps` stand there.

An edit that puts other trees in their place is `Change d d' p Ps Qs`: the new trees are
made of nodes of the old ones and of new nodes, and nothing else is touched.  Then it
does not matter what an edit does not look at (`Row.change_left`, `Row.change_right`,
`Row.change_below`): a part of a row may be changed by itself, and so may the trees below
one tree of the row.

The edits that evaluation makes are of this kind: a new tree is put before another one
(`Row.insert`), a tree is taken out (`Row.detach`), a content is replaced
(`Row.setContent`).
-/
import HtmlCompose.Proofs.Markup.Edit

namespace HtmlCompose
namespace Markup

open Placed

/-- Placed trees stand in a row below a parent, between other children of it. -/
structure Row (d : Document) (p : Handle) (before : List Handle) (Ps : List Placed)
    (behind : List Handle) : Prop where
  parent : p < d.size
  children : d.children p = before ++ Ps.map handle ++ behind
  shows : d.ShowsAll (some p) Ps
  nodup : (allHandles Ps).Nodup
  apart : ∀ x ∈ allHandles Ps, x ≠ p ∧ x ∉ before ∧ x ∉ behind
  known : ∀ x ∈ before ++ behind, x < d.size

/-- Placed trees below a parent have been changed to other ones, and nothing else has. -/
structure Change (d d' : Document) (p : Handle) (Ps Qs : List Placed) : Prop where
  origin : ∀ x ∈ allHandles Qs, x ∈ allHandles Ps ∨ d.size ≤ x
  frame : ∀ x < d.size, x ≠ p → x ∉ allHandles Ps → d'.node x = d.node x
  content : d'.content p = d.content p
  parent : d'.parent? p = d.parent? p
  size : d.size ≤ d'.size

/-- Leaving a document as it is is a change of any trees to themselves. -/
theorem Change.refl (d : Document) (p : Handle) (Ps : List Placed) : Change d d p Ps Ps where
  origin _ hx := .inl hx
  frame _ _ _ _ := rfl
  content := rfl
  parent := rfl
  size := Nat.le_refl _

/-- Changes follow one another. -/
theorem Change.trans {d d' d'' : Document} {p : Handle} {Ps Qs Rs : List Placed}
    (h : Change d d' p Ps Qs) (h' : Change d' d'' p Qs Rs) : Change d d'' p Ps Rs where
  origin x hx := (h'.origin x hx).elim (h.origin x) fun hle => .inr (h.size.trans hle)
  frame x hx hp hPs := by
    have hQs : x ∉ allHandles Qs := fun hQs =>
      (h.origin x hQs).elim hPs fun hle => absurd hx (not_lt.2 hle)
    exact (h'.frame x (hx.trans_le h.size) hp hQs).trans (h.frame x hx hp hPs)
  content := h'.content.trans h.content
  parent := h'.parent.trans h.parent
  size := h.size.trans h'.size

namespace Change

variable {d d' : Document} {p : Handle} {As As' Bs Bs' : List Placed}

/-- A change of the first trees of a row is one of the row. -/
theorem append_right (h : Change d d' p As As') (Bs : List Placed) :
    Change d d' p (As ++ Bs) (As' ++ Bs) where
  origin x hx := by
    rw [allHandles_append, List.mem_append] at hx ⊢
    rcases hx with hx | hx
    · exact (h.origin x hx).imp_left .inl
    · exact .inl (.inr hx)
  frame x hx hp hnot := by
    rw [allHandles_append, List.mem_append, not_or] at hnot
    exact h.frame x hx hp hnot.1
  content := h.content
  parent := h.parent
  size := h.size

/-- A change of the last trees of a row is one of the row. -/
theorem append_left (h : Change d d' p Bs Bs') (As : List Placed) :
    Change d d' p (As ++ Bs) (As ++ Bs') where
  origin x hx := by
    rw [allHandles_append, List.mem_append] at hx ⊢
    rcases hx with hx | hx
    · exact .inl (.inl hx)
    · exact (h.origin x hx).imp_left .inr
  frame x hx hp hnot := by
    rw [allHandles_append, List.mem_append, not_or] at hnot
    exact h.frame x hx hp hnot.2
  content := h.content
  parent := h.parent
  size := h.size

end Change

namespace Row

variable {d d' : Document} {p : Handle} {before behind : List Handle}
  {As As' Bs Bs' Ps Qs : List Placed}

/-- The document has all nodes of a row. -/
theorem lt (h : Row d p before Ps behind) : ∀ x ∈ allHandles Ps, x < d.size := h.shows.lt

/-- Handles that the document does not have stand apart from a row. -/
theorem apart_of_le (h : Row d p before Ps behind) {x : Handle} (hx : d.size ≤ x) :
    x ≠ p ∧ x ∉ before ∧ x ∉ behind := by
  refine ⟨?_, fun hmem => ?_, fun hmem => ?_⟩
  · rintro rfl
    exact absurd h.parent (not_lt.2 hx)
  · exact absurd (h.known x (List.mem_append_left _ hmem)) (not_lt.2 hx)
  · exact absurd (h.known x (List.mem_append_right _ hmem)) (not_lt.2 hx)

/-! ### Parts of a row -/

/-- The first part of a row is a row before the others. -/
theorem left (h : Row d p before (As ++ Bs) behind) :
    Row d p before As (Bs.map handle ++ behind) where
  parent := h.parent
  children := by simpa only [List.map_append, List.append_assoc] using h.children
  shows := ((d.showsAll_append _ As Bs).1 h.shows).1
  nodup := (List.nodup_append'.1 (allHandles_append As Bs ▸ h.nodup)).1
  apart x hx := by
    obtain ⟨hp, hbefore, hbehind⟩ := h.apart x
      (allHandles_append As Bs ▸ List.mem_append_left _ hx)
    refine ⟨hp, hbefore, fun hmem => ?_⟩
    rcases List.mem_append.1 hmem with hmem | hmem
    · exact (List.nodup_append'.1 (allHandles_append As Bs ▸ h.nodup)).2.2 hx
        (map_handle_subset Bs hmem)
    · exact hbehind hmem
  known x hx := by
    simp only [List.mem_append] at hx
    rcases hx with hx | hx | hx
    · exact h.known x (List.mem_append_left _ hx)
    · exact h.lt x (allHandles_append As Bs ▸ List.mem_append_right _ (map_handle_subset Bs hx))
    · exact h.known x (List.mem_append_right _ hx)

/-- The last part of a row is a row behind the others. -/
theorem right (h : Row d p before (As ++ Bs) behind) :
    Row d p (before ++ As.map handle) Bs behind where
  parent := h.parent
  children := by simpa only [List.map_append, List.append_assoc] using h.children
  shows := ((d.showsAll_append _ As Bs).1 h.shows).2
  nodup := (List.nodup_append'.1 (allHandles_append As Bs ▸ h.nodup)).2.1
  apart x hx := by
    obtain ⟨hp, hbefore, hbehind⟩ := h.apart x
      (allHandles_append As Bs ▸ List.mem_append_right _ hx)
    refine ⟨hp, fun hmem => ?_, hbehind⟩
    rcases List.mem_append.1 hmem with hmem | hmem
    · exact hbefore hmem
    · exact (List.nodup_append'.1 (allHandles_append As Bs ▸ h.nodup)).2.2
        (map_handle_subset As hmem) hx
  known x hx := by
    simp only [List.mem_append] at hx
    rcases hx with (hx | hx) | hx
    · exact h.known x (List.mem_append_left _ hx)
    · exact h.lt x (allHandles_append As Bs ▸ List.mem_append_left _ (map_handle_subset As hx))
    · exact h.known x (List.mem_append_right _ hx)

/-- Two rows that follow one another, made of different nodes, are one row. -/
theorem append (hA : Row d p before As (Bs.map handle ++ behind))
    (hB : Row d p (before ++ As.map handle) Bs behind)
    (hdisjoint : ∀ x ∈ allHandles As, x ∉ allHandles Bs) :
    Row d p before (As ++ Bs) behind where
  parent := hA.parent
  children := by simpa only [List.map_append, List.append_assoc] using hA.children
  shows := (d.showsAll_append _ As Bs).2 ⟨hA.shows, hB.shows⟩
  nodup := by
    rw [allHandles_append, List.nodup_append']
    exact ⟨hA.nodup, hB.nodup, fun x hx hx' => hdisjoint x hx hx'⟩
  apart x hx := by
    rw [allHandles_append, List.mem_append] at hx
    rcases hx with hx | hx
    · obtain ⟨hp, hbefore, hbehind⟩ := hA.apart x hx
      exact ⟨hp, hbefore, fun hmem => hbehind (List.mem_append_right _ hmem)⟩
    · obtain ⟨hp, hbefore, hbehind⟩ := hB.apart x hx
      exact ⟨hp, fun hmem => hbefore (List.mem_append_left _ hmem), hbehind⟩
  known x hx := by
    rcases List.mem_append.1 hx with hx | hx
    · exact hA.known x (List.mem_append_left _ hx)
    · exact hB.known x (List.mem_append_right _ hx)

/-- A row stays as it is when other trees below its parent are changed. -/
theorem shows_of_change (h : Row d p before Ps behind) (hchange : Change d d' p As As')
    (hdisjoint : ∀ x ∈ allHandles Ps, x ∉ allHandles As) : d'.ShowsAll (some p) Ps :=
  h.shows.frame hchange.size fun x hx =>
    hchange.frame x (h.lt x hx) (h.apart x hx).1 (hdisjoint x hx)

/-- **The first part of a row may be changed by itself.** -/
theorem change_left (h : Row d p before (As ++ Bs) behind)
    (h' : Row d' p before As' (Bs.map handle ++ behind)) (hchange : Change d d' p As As') :
    Row d' p before (As' ++ Bs) behind := by
  have hAB : ∀ x ∈ allHandles Bs, x ∉ allHandles As := fun x hx hx' =>
    (List.nodup_append'.1 (allHandles_append As Bs ▸ h.nodup)).2.2 hx' hx
  have hA'B : ∀ x ∈ allHandles As', x ∉ allHandles Bs := fun x hx hx' =>
    (hchange.origin x hx).elim (hAB x hx') fun hle => absurd (h.right.lt x hx') (not_lt.2 hle)
  refine h'.append ⟨h'.parent, ?_, h.right.shows_of_change hchange hAB, h.right.nodup, ?_, ?_⟩ hA'B
  · simpa only [List.append_assoc] using h'.children
  · intro x hx
    obtain ⟨hp, hbefore, hbehind⟩ := h.right.apart x hx
    refine ⟨hp, fun hmem => ?_, hbehind⟩
    rcases List.mem_append.1 hmem with hmem | hmem
    · exact hbefore (List.mem_append_left _ hmem)
    · exact hA'B x (map_handle_subset As' hmem) hx
  · intro x hx
    rcases List.mem_append.1 hx with hx | hx
    · rcases List.mem_append.1 hx with hx | hx
      · exact h'.known x (List.mem_append_left _ hx)
      · exact h'.lt x (map_handle_subset As' hx)
    · exact h'.known x (List.mem_append_right _ (List.mem_append_right _ hx))

/-- **The last part of a row may be changed by itself.** -/
theorem change_right (h : Row d p before (As ++ Bs) behind)
    (h' : Row d' p (before ++ As.map handle) Bs' behind) (hchange : Change d d' p Bs Bs') :
    Row d' p before (As ++ Bs') behind := by
  have hAB : ∀ x ∈ allHandles As, x ∉ allHandles Bs := fun x hx hx' =>
    (List.nodup_append'.1 (allHandles_append As Bs ▸ h.nodup)).2.2 hx hx'
  have hAB' : ∀ x ∈ allHandles As, x ∉ allHandles Bs' := fun x hx hx' =>
    (hchange.origin x hx').elim (hAB x hx) fun hle => absurd (h.left.lt x hx) (not_lt.2 hle)
  refine append ⟨h'.parent, ?_, h.left.shows_of_change hchange hAB, h.left.nodup, ?_, ?_⟩ h' hAB'
  · simpa only [List.append_assoc] using h'.children
  · intro x hx
    obtain ⟨hp, hbefore, hbehind⟩ := h.left.apart x hx
    refine ⟨hp, hbefore, fun hmem => ?_⟩
    rcases List.mem_append.1 hmem with hmem | hmem
    · exact hAB' x hx (map_handle_subset Bs' hmem)
    · exact hbehind (List.mem_append_right _ hmem)
  · intro x hx
    rcases List.mem_append.1 hx with hx | hx
    · exact h'.known x (List.mem_append_left _ (List.mem_append_left _ hx))
    · rcases List.mem_append.1 hx with hx | hx
      · exact h'.lt x (map_handle_subset Bs' hx)
      · exact h'.known x (List.mem_append_right _ hx)

/-! ### Below a tree of a row -/

variable {h : Handle} {c c' : Content} {kids kids' : List Placed} {P C : Placed}

/-- The node of a tree that stands alone in a row. -/
theorem node_eq (hrow : Row d p before [.node h c kids] behind) :
    d.node h = ⟨c, some p, kids.map handle⟩ :=
  hrow.shows.1.2.1

/-- The trees below a shown node are a row. -/
theorem of_shows {parent : Option Handle} (hshows : d.Shows parent (.node h c kids))
    (hnodup : (Placed.node h c kids).handles.Nodup) : Row d h [] kids [] := by
  obtain ⟨hlt, hnode, hkids⟩ := hshows
  rw [handles, List.nodup_cons] at hnodup
  refine ⟨hlt, ?_, hkids, hnodup.2, fun x hx => ⟨?_, List.not_mem_nil, List.not_mem_nil⟩,
    fun x hx => absurd hx List.not_mem_nil⟩
  · rw [List.nil_append, List.append_nil]
    exact congrArg Node.children hnode
  · rintro rfl
    exact hnodup.1 hx

/-- The trees below a node of a row are a row themselves. -/
theorem below (hrow : Row d p before [.node h c kids] behind) : Row d h [] kids [] :=
  of_shows hrow.shows.1 (allHandles_singleton _ ▸ hrow.nodup)

/-- A row that is all its parent has is the list of the parent's children. -/
theorem children_eq (h : Row d p [] Ps []) : d.children p = Ps.map handle := by
  rw [h.children, List.nil_append, List.append_nil]

/-- A change of all that is below a node changes the children of the node only. -/
theorem node_of_change (h : Row d' p [] Qs []) (hchange : Change d d' p Ps Qs) :
    d'.node p = { d.node p with children := Qs.map handle } := by
  have hcontent : (d'.node p).content = (d.node p).content := hchange.content
  have hparent : (d'.node p).parent = (d.node p).parent := hchange.parent
  show d'.node p = ⟨(d.node p).content, (d.node p).parent, Qs.map handle⟩
  rw [← hcontent, ← hparent, ← h.children_eq]
  rfl

/-- **The trees below a tree of a row may be changed by themselves.** -/
theorem change_below (hrow : Row d p before [.node h c kids] behind)
    (hkids : Row d' h [] kids' []) (hchange : Change d d' h kids kids') :
    Row d' p before [.node h c kids'] behind ∧
      Change d d' p [.node h c kids] [.node h c kids'] := by
  have hapart : ∀ {kids : List Placed} {x : Handle},
      x ∈ allHandles [Placed.node h c kids] ↔ x = h ∨ x ∈ allHandles kids := by
    intro kids x
    rw [allHandles_singleton, handles, List.mem_cons]
  have hp : p ≠ h ∧ p ∉ allHandles kids :=
    ⟨fun hph => (hrow.apart h (hapart.2 (.inl rfl))).1 hph.symm,
      fun hmem => (hrow.apart p (hapart.2 (.inr hmem))).1 rfl⟩
  have hnodep := hchange.frame p hrow.parent hp.1 hp.2
  have hnodeh : d'.node h = ⟨c, some p, kids'.map handle⟩ := by
    rw [hkids.node_of_change hchange, hrow.node_eq]
  refine ⟨⟨hrow.parent.trans_le hchange.size, ?_, ⟨⟨hkids.parent, hnodeh, hkids.shows⟩, trivial⟩,
    ?_, ?_, fun x hx => (hrow.known x hx).trans_le hchange.size⟩, ⟨?_, ?_, ?_, ?_, hchange.size⟩⟩
  · rw [Document.children, hnodep]
    exact hrow.children
  · rw [allHandles_singleton, handles, List.nodup_cons]
    exact ⟨fun hmem => (hkids.apart h hmem).1 rfl, hkids.nodup⟩
  · intro x hx
    rcases hapart.1 hx with rfl | hx
    · exact hrow.apart x (hapart.2 (.inl rfl))
    · rcases hchange.origin x hx with hold | hnew
      · exact hrow.apart x (hapart.2 (.inr hold))
      · exact hrow.apart_of_le hnew
  · intro x hx
    rcases hapart.1 hx with rfl | hx
    · exact .inl (hapart.2 (.inl rfl))
    · exact (hchange.origin x hx).imp_left fun hold => hapart.2 (.inr hold)
  · intro x hx hxp hxh
    rw [hapart, not_or] at hxh
    exact hchange.frame x hx hxh.1 hxh.2
  · exact congrArg Node.content hnodep
  · exact congrArg Node.parent hnodep

/-! ### Edits of a row -/

/-- The topmost node of a tree is neither its parent nor one of those beside it. -/
theorem handle_not_mem (hrow : Row d p before [P] behind) :
    P.handle ≠ p ∧ P.handle ∉ before ∧ P.handle ∉ behind :=
  hrow.apart P.handle (allHandles_singleton P ▸ P.handle_mem)

/-- The content of a tree of a row is replaced. -/
theorem setContent (hrow : Row d p before [.node h c kids] behind) (c' : Content) :
    Row (d.setContent h c') p before [.node h c' kids] behind ∧
      Change d (d.setContent h c') p [.node h c kids] [.node h c' kids] := by
  obtain ⟨⟨hlt, hnode, hkids⟩, -⟩ := hrow.shows
  have hph : p ≠ h := hrow.handle_not_mem.1.symm
  have hnodep := Document.node_setContent_of_ne (d := d) hph c'
  have hself : (d.setContent h c').node h = ⟨c', some p, kids.map handle⟩ := by
    rw [Document.node_setContent_self hlt, hnode]
  have hkids' : (d.setContent h c').ShowsAll (some h) kids :=
    hkids.frame (by rw [Document.size_setContent]) fun x hx =>
      Document.node_setContent_of_ne (hrow.below.apart x hx).1 c'
  have hsize := Document.size_setContent d h c'
  refine ⟨⟨hrow.parent.trans_eq hsize.symm, ?_, ⟨⟨hlt.trans_eq hsize.symm, hself, hkids'⟩, trivial⟩,
    hrow.nodup, hrow.apart, fun x hx => (hrow.known x hx).trans_eq hsize.symm⟩,
    ⟨fun x hx => .inl hx, ?_, ?_, ?_, hsize.ge⟩⟩
  · rw [Document.children, hnodep]
    exact hrow.children
  · intro x _ _ hx
    refine Document.node_setContent_of_ne ?_ c'
    rintro rfl
    exact hx (allHandles_singleton _ ▸ List.mem_cons_self)
  · exact congrArg Node.content hnodep
  · exact congrArg Node.parent hnodep

/-- **A new tree is put before a tree of a row.** -/
theorem insert (hrow : Row d p before [P] behind) {e : Document} (hC : e.Shows none C)
    (hfresh : d.Fresh e C.handles) (hframe : ∀ x < d.size, e.node x = d.node x) :
    Row (e.insertBefore P.handle C.handle) p before [C, P] behind ∧
      Change d (e.insertBefore P.handle C.handle) p [P] [C, P] := by
  have hP : d.Shows (some p) P := hrow.shows.1
  have hPlt : P.handle < d.size := hP.lt _ P.handle_mem
  have hPne : P.handle ≠ C.handle := (hPlt.trans_le (hfresh.le C.handle_mem)).ne
  have hPparent : (e.node P.handle).parent = some p := by rw [hframe _ hPlt, hP.parent_eq]
  have hchildren : d.children p = before ++ P.handle :: behind := by simpa using hrow.children
  rw [Document.insertBefore_eq_link hPne hC.parent_eq hPparent]
  obtain ⟨hsize, hlink, hother, hCshows⟩ := Document.link_fresh hrow.parent hC hfresh hframe
    (Document.placeBefore P.handle C.handle)
  rw [← Document.children, hchildren,
    Document.placeBefore_append hrow.handle_not_mem.2.1] at hlink
  generalize e.link p C.handle _ = d' at hsize hlink hother hCshows ⊢
  have hle : d.size ≤ d'.size := by rw [hsize, hfresh.size]; exact Nat.le_add_right _ _
  have hPapart : ∀ x ∈ P.handles, x ≠ p ∧ x ∉ before ∧ x ∉ behind := fun x hx =>
    hrow.apart x (allHandles_singleton P ▸ hx)
  have hPshows : d'.Shows (some p) P :=
    hP.frame hle fun x hx => hother x (hP.lt x hx) (hPapart x hx).1
  have hmem : ∀ x, x ∈ allHandles [C, P] ↔ x ∈ C.handles ∨ x ∈ P.handles := fun x => by
    rw [allHandles, List.mem_append, allHandles_singleton]
  refine ⟨⟨hrow.parent.trans_le hle, ?_, ⟨hCshows, hPshows, trivial⟩, ?_, ?_,
    fun x hx => (hrow.known x hx).trans_le hle⟩, ⟨?_, ?_, ?_, ?_, hle⟩⟩
  · rw [Document.children, hlink]
    simp
  · rw [allHandles, List.nodup_append']
    refine ⟨hfresh.nodup, hrow.nodup, fun x hx hx' => ?_⟩
    rw [allHandles_singleton] at hx'
    exact absurd (hP.lt x hx') (not_lt.2 (hfresh.le hx))
  · intro x hx
    exact ((hmem x).1 hx).elim (fun hx => hrow.apart_of_le (hfresh.le hx)) (hPapart x)
  · intro x hx
    rcases (hmem x).1 hx with hx | hx
    · exact .inr (hfresh.le hx)
    · exact .inl (allHandles_singleton P ▸ hx)
  · exact fun x hx hxp _ => hother x hx hxp
  · rw [Document.content, hlink]
    rfl
  · rw [Document.parent?, hlink]
    rfl

/-- **A tree of a row is taken out.** -/
theorem detach (hrow : Row d p before (Qs ++ [P]) behind) :
    Row (d.detach P.handle) p before Qs behind ∧
      Change d (d.detach P.handle) p (Qs ++ [P]) Qs := by
  have hP : d.Shows (some p) P := hrow.right.shows.1
  have hparent : (d.node P.handle).parent = some p := hP.parent_eq
  obtain ⟨hPp, hbefore, hbehind⟩ := hrow.right.handle_not_mem
  have hnodep := Document.node_detach_parent hparent hrow.parent hPp.symm
  have hother : ∀ x, x ≠ p → x ≠ P.handle → (d.detach P.handle).node x = d.node x :=
    fun x hxp hxP => Document.node_detach_of_ne hparent hxp hxP
  have hchildren : d.children p = (before ++ Qs.map handle) ++ P.handle :: behind := by
    simpa using hrow.right.children
  rw [Document.children] at hchildren
  rw [hchildren, Document.filter_ne_append hbefore hbehind] at hnodep
  have hQP : ∀ x ∈ allHandles Qs, x ≠ P.handle := by
    rintro x hx rfl
    exact (List.nodup_append'.1 (allHandles_append Qs [P] ▸ hrow.nodup)).2.2 hx
      (allHandles_singleton P ▸ P.handle_mem)
  have hsize := Document.size_detach d P.handle
  have hleft := hrow.left
  refine ⟨⟨hrow.parent.trans_eq hsize.symm, ?_, ?_, hleft.nodup, ?_,
    fun x hx => (hrow.known x hx).trans_eq hsize.symm⟩, ⟨?_, ?_, ?_, ?_, hsize.ge⟩⟩
  · rw [Document.children, hnodep]
  · exact hleft.shows.frame hsize.ge fun x hx => hother x (hleft.apart x hx).1 (hQP x hx)
  · intro x hx
    obtain ⟨hp, hbefore, hbehind⟩ := hleft.apart x hx
    exact ⟨hp, hbefore, fun hmem => hbehind (List.mem_append_right _ hmem)⟩
  · intro x hx
    exact .inl (allHandles_append Qs [P] ▸ List.mem_append_left _ hx)
  · intro x _ hxp hx
    refine hother x hxp ?_
    rintro rfl
    exact hx (map_handle_subset (Qs ++ [P]) (by simp))
  · rw [Document.content, hnodep]
    rfl
  · rw [Document.parent?, hnodep]
    rfl

end Row

end Markup
end HtmlCompose
