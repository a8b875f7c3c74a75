/-
# Filling slots in place, slot by slot

`Document.projectSlots` lists the slots below the holder once and then edits the document
slot by slot.  The list is in preorder, so the edits follow the recursion of
`Placed.fillAll`, with three things that hold whenever the turn of some trees comes
(`Stage`): they stand in a row, below the holder; the content that is left is a row below
the caller; and the two have no node in common.

| step | the row of the trees | the row of the caller |
| --- | --- | --- |
| a node that is no slot | the same with the slots below it served | what they leave over |
| a slot that finds nothing | its children in its place | as it was |
| a slot that finds something | that in its place | without it |

Slots below one that has found something are met later, but are not below the holder then,
because that one has no parent any more (`Row.loose`).

`servesAll` is the result, as a filling of placed trees.
-/
import HtmlCompose.Proofs.Markup.Moves
import HtmlCompose.Proofs.Resolve.Filling
import HtmlCompose.Render.Projection

namespace HtmlCompose
namespace Markup
namespace Document

open Placed

variable {d d' : Document} {holder caller p : Handle} {before behind : List Handle}
  {content Ps : List Placed} {P : Placed}

/-! ### What the slots receive -/

/-- Serves one slot, and notes what it has received. -/
def noteSlot (holder caller : Handle) (state : Document × List (Handle × List Handle))
    (slot : Handle) : Document × List (Handle × List Handle) :=
  let (d, notes) := state
  if d.isWithin slot holder then
    match d.slotContent caller slot with
    | [] => (d.replaceWith slot (d.children slot), notes)
    | content => (d.replaceWith slot content, notes ++ [(slot, content)])
  else state

/-- The slots below the holder that receive something, with what they receive. -/
def deliveries (d : Document) (holder caller : Handle) : List (Handle × List Handle) :=
  ((d.findElements holder Directive.slotTag).foldl (noteSlot holder caller) (d, [])).2

/-- The loop of the projection, with what is received read off the deliveries. -/
theorem projectSlots_eq (d : Document) (holder caller : Handle) :
    d.projectSlots holder caller =
      (((d.findElements holder Directive.slotTag).foldl (noteSlot holder caller) (d, [])).1,
        (d.deliveries holder caller).flatMap Prod.snd) := by
  have hstep : ∀ (state : Document × List (Handle × List Handle)) (slot : Handle),
      serveSlot holder caller (state.1, state.2.flatMap Prod.snd) slot =
        ((noteSlot holder caller state slot).1,
          (noteSlot holder caller state slot).2.flatMap Prod.snd) := by
    rintro ⟨d, notes⟩ slot
    unfold serveSlot noteSlot
    by_cases hwithin : d.isWithin slot holder = true
    · rcases hcontent : d.slotContent caller slot with _ | ⟨c, content⟩ <;>
        simp [hwithin, hcontent]
    · simp [hwithin]
  rw [projectSlots, deliveries]
  exact @List.foldl_hom _ _ _ (fun state : Document × List (Handle × List Handle) =>
    (state.1, state.2.flatMap Prod.snd)) _ _ (d.findElements holder Directive.slotTag) (d, []) hstep

section NoteSlot

variable {slot : Handle} {notes : List (Handle × List Handle)}

/-- A slot no longer inside the holder is left as it is. -/
theorem noteSlot_skipped (h : d.isWithin slot holder = false) :
    noteSlot holder caller (d, notes) slot = (d, notes) := by
  simp [noteSlot, h]

/-- A slot for which there is nothing gives way to its own children. -/
theorem noteSlot_default (h : d.isWithin slot holder = true)
    (hcontent : d.slotContent caller slot = []) :
    noteSlot holder caller (d, notes) slot = (d.replaceWith slot (d.children slot), notes) := by
  simp [noteSlot, h, hcontent]

/-- A slot for which there is something gives way to it, and the delivery is noted. -/
theorem noteSlot_received (h : d.isWithin slot holder = true)
    (hcontent : d.slotContent caller slot ≠ []) :
    noteSlot holder caller (d, notes) slot =
      (d.replaceWith slot (d.slotContent caller slot),
        notes ++ [(slot, d.slotContent caller slot)]) := by
  rcases hc : d.slotContent caller slot with _ | ⟨c, content⟩
  · exact absurd hc hcontent
  · simp [noteSlot, h, hc]

/-- A run of slots no longer inside the holder changes nothing. -/
theorem foldl_noteSlot_skipped {slots : List Handle}
    (h : ∀ slot ∈ slots, d.isWithin slot holder = false) :
    slots.foldl (noteSlot holder caller) (d, notes) = (d, notes) := by
  induction slots with
  | nil => rfl
  | cons slot slots ih =>
    obtain ⟨hslot, hslots⟩ := List.forall_mem_cons.1 h
    rw [List.foldl_cons, noteSlot_skipped hslot, ih hslots]

end NoteSlot

/-! ### Slots of shown trees -/

/-- The slot elements are the nodes that make a demand. -/
theorem isElement_slotTag (d : Document) (h : Handle) :
    d.isElement Directive.slotTag h = (Slot.demand? (d.content h)).isSome := by
  rw [isElement, element?, Slot.demand?]
  rcases d.content h with _ | e | _ | _ | _
  · rfl
  · simp only [Content.element?, Option.any_some, Option.bind_some]
    split
    · next hslot =>
      rcases e.attr? "name" with _ | name <;> exact hslot
    · next hslot => simpa using hslot
  · rfl
  · rfl
  · rfl

mutual
/-- Among the nodes of a tree the slot elements are its slots. -/
theorem Shows.filter_slots {d : Document} {parent : Option Handle} {P : Placed}
    (hP : d.Shows parent P) : P.handles.filter (d.isElement Directive.slotTag) = P.slots := by
  obtain ⟨h, c, kids⟩ := P
  have hc : d.content h = c := congrArg Node.content hP.2.1
  rw [handles, slots, List.filter_cons, isElement_slotTag, hc, ShowsAll.filter_slots hP.2.2]

/-- The slots of shown trees are the elements with the slot's tag. -/
theorem ShowsAll.filter_slots {d : Document} {parent : Option Handle} {Ps : List Placed}
    (hPs : d.ShowsAll parent Ps) :
    (allHandles Ps).filter (d.isElement Directive.slotTag) = slotsAll Ps := by
  match Ps with
  | [] => rfl
  | P :: Ps =>
    rw [allHandles, slotsAll, List.filter_append, Shows.filter_slots hPs.1,
      ShowsAll.filter_slots hPs.2]
end

/-- A node asks for the slot that its tree asks for. -/
theorem Shows.target_eq {parent : Option Handle} (hP : d.Shows parent P) :
    d.slotTarget? P.handle = P.target? := by
  obtain ⟨h, c, kids⟩ := P
  have hc : d.content h = c := congrArg Node.content hP.2.1
  rw [slotTarget?, element?, Placed.handle, hc]
  rfl

/-- Looking for a target among nodes is looking for it among their trees. -/
theorem ShowsAll.find?_target {parent : Option Handle} {Ps : List Placed}
    (hPs : d.ShowsAll parent Ps) (name : String) :
    (Ps.map handle).find? (fun c => d.slotTarget? c == some name) =
      (Ps.find? fun P => P.target? == some name).map handle := by
  induction Ps with
  | nil => rfl
  | cons P Ps ih =>
    rw [List.map_cons, List.find?_cons, List.find?_cons, hPs.1.target_eq]
    split
    · rfl
    · exact ih hPs.2

/-- A slot finds what it takes of the content. -/
theorem slotContent_eq {slot : Handle} {demand : Slot.Demand}
    (hdemand : Slot.demand? (d.content slot) = some demand)
    (hcontent : d.ShowsAll (some caller) content)
    (hchildren : d.children caller = content.map handle) :
    d.slotContent caller slot = (Slot.take target? demand content).1.map handle := by
  rw [Slot.demand?, Option.bind_eq_some_iff] at hdemand
  obtain ⟨e, he, hdemand⟩ := hdemand
  rw [slotContent, element?, he, hchildren]
  split at hdemand
  · rcases hname : e.attr? "name" with _ | name <;> rw [hname] at hdemand <;>
      simp only [Option.bind_some, hname]
    · obtain rfl := Option.some.inj hdemand
      rfl
    · obtain rfl := Option.some.inj hdemand
      split
      · rfl
      · rw [hcontent.find?_target, Slot.take, Option.toList_map]
  · cases hdemand

/-! ### Trees whose turn has come -/

/-- Two nodes have got other children, nodes of a region have been relinked, and nothing else has
happened. -/
structure Exchange (d d' : Document) (p caller : Handle) (region : List Handle) : Prop where
  size : d'.size = d.size
  content : ∀ x, d'.content x = d.content x
  parent : ∀ x ∉ region, d'.parent? x = d.parent? x
  children : ∀ x ∉ region, x ≠ p → x ≠ caller → d'.children x = d.children x

namespace Exchange

variable {d'' : Document} {region region' : List Handle}

/-- A document is exchanged for itself. -/
theorem refl (d : Document) (p caller : Handle) (region : List Handle) :
    Exchange d d p caller region :=
  ⟨rfl, fun _ => rfl, fun _ _ => rfl, fun _ _ _ _ => rfl⟩

/-- An exchange within a region is one within any larger region. -/
theorem mono (h : Exchange d d' p caller region) (hregion : region ⊆ region') :
    Exchange d d' p caller region' :=
  ⟨h.size, h.content, fun x hx => h.parent x fun hmem => hx (hregion hmem),
    fun x hx => h.children x fun hmem => hx (hregion hmem)⟩

/-- Exchanges follow one another. -/
theorem trans (h : Exchange d d' p caller region) (h' : Exchange d' d'' p caller region) :
    Exchange d d'' p caller region :=
  ⟨h'.size.trans h.size, fun x => (h'.content x).trans (h.content x),
    fun x hx => (h'.parent x hx).trans (h.parent x hx),
    fun x hx hp hcaller => (h'.children x hx hp hcaller).trans (h.children x hx hp hcaller)⟩

/-- Nodes outside the region, other than the parent and the caller, are untouched. -/
theorem node_eq (h : Exchange d d' p caller region) {x : Handle} (hx : x ∉ region) (hp : x ≠ p)
    (hcaller : x ≠ caller) : d'.node x = d.node x :=
  node_ext (h.content x) (h.parent x hx) (h.children x hx hp hcaller)

end Exchange

/-- The turn of some trees has come: they are a row below the holder, the content that is left is a
row below the caller, and the two are apart.  That the row is below the holder does not depend on
the nodes of the two rows. -/
structure Stage (d : Document) (holder caller p : Handle) (before : List Handle)
    (Ps : List Placed) (behind : List Handle) (content : List Placed) : Prop where
  wellFormed : d.WellFormed
  row : Row d p before Ps behind
  offer : Row d caller [] content []
  nodup : (allHandles Ps ++ allHandles content).Nodup
  parent_out : p ∉ allHandles content
  parent_ne : p ≠ caller
  caller_out : caller ∉ allHandles Ps
  holder_out : holder ∉ allHandles Ps
  sides : ∀ x ∈ before ++ behind, x ∉ allHandles content
  up : ∀ d' : Document, (∀ x ∉ allHandles Ps ++ allHandles content, d'.parent? x = d.parent? x) →
    p = holder ∨ d'.Below p holder

namespace Stage

variable {As Bs kids : List Placed} {h : Handle} {c : Content}

/-- The slots' trees and the content have no node in common. -/
theorem disjoint (hs : Stage d holder caller p before Ps behind content) {x : Handle}
    (hx : x ∈ allHandles Ps) : x ∉ allHandles content := fun hmem =>
  (List.nodup_append'.1 hs.nodup).2.2 hx hmem

/-- The first trees of a row come first. -/
theorem left (hs : Stage d holder caller p before (As ++ Bs) behind content) :
    Stage d holder caller p before As (Bs.map handle ++ behind) content where
  wellFormed := hs.wellFormed
  row := hs.row.left
  offer := hs.offer
  nodup := by
    have hsub : (allHandles As ++ allHandles content).Sublist
        (allHandles (As ++ Bs) ++ allHandles content) :=
      (allHandles_append As Bs ▸ List.sublist_append_left _ _).append_right _
    exact hs.nodup.sublist hsub
  parent_out := hs.parent_out
  parent_ne := hs.parent_ne
  caller_out hmem := hs.caller_out (allHandles_append As Bs ▸ List.mem_append_left _ hmem)
  holder_out hmem := hs.holder_out (allHandles_append As Bs ▸ List.mem_append_left _ hmem)
  sides x hx := by
    simp only [List.mem_append] at hx
    rcases hx with hx | hx | hx
    · exact hs.sides x (List.mem_append_left _ hx)
    · exact hs.disjoint
        (allHandles_append As Bs ▸ List.mem_append_right _ (map_handle_subset Bs hx))
    · exact hs.sides x (List.mem_append_right _ hx)
  up d' hd' := hs.up d' fun _ hx => hd' _ fun hmem => hx <| by
    rw [allHandles_append, List.append_assoc, List.mem_append, List.mem_append]
    exact (List.mem_append.1 hmem).imp_right .inr

/-- The trees behind some trees have nothing to do with these, nor with the content. -/
theorem behind_apart (hs : Stage d holder caller p before (As ++ Bs) behind content) {x : Handle}
    (hx : x ∈ allHandles Bs) : x ∉ allHandles As ++ allHandles content := fun hmem => by
  have hnodup := hs.nodup
  rw [allHandles_append, List.append_assoc] at hnodup
  rcases List.mem_append.1 hmem with hmem | hmem
  · exact (List.nodup_append'.1 hnodup).2.2 hmem (List.mem_append_left _ hx)
  · exact hs.disjoint (allHandles_append As Bs ▸ List.mem_append_right _ hx) hmem

/-- The trees below a node come when the node itself does. -/
theorem below (hs : Stage d holder caller p before [.node h c kids] behind content) :
    Stage d holder caller h [] kids [] content := by
  have hrow := hs.row
  have hnodup := hs.nodup
  have hdisjoint := fun x => hs.disjoint (x := x)
  have hcaller := hs.caller_out
  have hholder := hs.holder_out
  have hup := hs.up
  rw [allHandles_singleton, handles] at hnodup hcaller hholder
  simp only [allHandles_singleton, handles] at hdisjoint hup
  rw [List.cons_append, List.nodup_cons, List.mem_append, not_or] at hnodup
  rw [List.mem_cons, not_or] at hcaller hholder
  refine ⟨hs.wellFormed, hrow.below, hs.offer, hnodup.2, hnodup.1.2, Ne.symm hcaller.1, hcaller.2,
    hholder.2, by simp, fun d' hd' => .inr ?_⟩
  have hparent : d'.parent? h = some p := by
    rw [hd' h (by rw [List.mem_append, not_or]; exact hnodup.1), parent?, hrow.node_eq]
  rcases hup d' fun x hx => hd' x fun hmem => hx (List.mem_cons_of_mem h hmem) with rfl | hbelow
  · exact .child hparent
  · exact .up hparent hbelow

/-- A node whose turn has come is below the holder. -/
theorem isWithin (hs : Stage d holder caller p before [.node h c kids] behind content) :
    d.isWithin h holder = true := by
  have hparent : d.parent? h = some p := congrArg Node.parent hs.row.node_eq
  rw [isWithin_iff_below]
  rcases hs.up d fun _ _ => rfl with rfl | hbelow
  · exact .child hparent
  · exact .up hparent hbelow

end Stage

/-- What the slots of some trees have come to. -/
structure Served (d d' : Document) (caller p : Handle) (before : List Handle) (Ps : List Placed)
    (behind : List Handle) (content : List Placed) (f : Filling) : Prop where
  wellFormed : d'.WellFormed
  row : Row d' p before f.trees behind
  offer : Row d' caller [] f.left []
  exchange : Exchange d d' p caller (allHandles Ps ++ allHandles content)

namespace Served

variable {kids : List Placed} {h : Handle} {c : Content}

/-- The trees behind some trees come next. -/
theorem next {As Bs : List Placed} (hs : Stage d holder caller p before (As ++ Bs) behind content)
    (h : Served d d' caller p before As (Bs.map handle ++ behind) content (fillAll content As)) :
    Stage d' holder caller p (before ++ (fillAll content As).trees.map handle) Bs behind
      (fillAll content As).left := by
  have hsub := subperm_fillAll content As
  obtain ⟨-, hleft, hapart⟩ := List.nodup_append'.1 (nodup_fillAll hs.left.nodup)
  have hnode : ∀ x ∈ allHandles Bs, d'.node x = d.node x := fun x hx =>
    h.exchange.node_eq (hs.behind_apart hx) (hs.row.right.apart x hx).1 fun heq =>
      hs.caller_out (heq ▸ allHandles_append As Bs ▸ List.mem_append_right _ hx)
  have htrees : ∀ x ∈ (fillAll content As).trees.map handle,
      x ∈ allHandles As ++ allHandles content := fun x hx =>
    hsub.subset (List.mem_append_left _ (map_handle_subset _ hx))
  refine ⟨h.wellFormed, ⟨h.row.parent, ?_, hs.row.right.shows.frame h.exchange.size.ge hnode,
      hs.row.right.nodup, fun x hx => ?_, fun x hx => ?_⟩, h.offer, ?_,
    fun hmem => hs.parent_out (left_subset _ _ hmem), hs.parent_ne,
    fun hmem => hs.caller_out (allHandles_append As Bs ▸ List.mem_append_right _ hmem),
    fun hmem => hs.holder_out (allHandles_append As Bs ▸ List.mem_append_right _ hmem),
    fun x hx hmem => ?_, fun d'' hd'' => ?_⟩
  · rw [h.row.children]
    simp only [List.append_assoc]
  · obtain ⟨hxp, hxbefore, hxbehind⟩ := hs.row.right.apart x hx
    refine ⟨hxp, fun hmem => ?_, hxbehind⟩
    rcases List.mem_append.1 hmem with hmem | hmem
    · exact hxbefore (List.mem_append_left _ hmem)
    · exact hs.behind_apart hx (htrees x hmem)
  · simp only [List.mem_append, or_assoc] at hx
    rcases hx with hx | hx | hx
    · exact h.row.known x (List.mem_append_left _ hx)
    · exact h.row.lt x (map_handle_subset _ hx)
    · exact h.row.known x (List.mem_append_right _ (List.mem_append_right _ hx))
  · refine List.nodup_append'.2 ⟨hs.row.right.nodup, hleft, fun x hx hmem => ?_⟩
    exact hs.behind_apart hx (List.mem_append_right _ (left_subset _ _ hmem))
  · simp only [List.mem_append, or_assoc] at hx
    rcases hx with hx | hx | hx
    · exact hs.sides x (List.mem_append_left _ hx) (left_subset _ _ hmem)
    · exact hapart (map_handle_subset _ hx) hmem
    · exact hs.sides x (List.mem_append_right _ hx) (left_subset _ _ hmem)
  · refine hs.up d'' fun x hx => ?_
    rw [allHandles_append, List.append_assoc, List.mem_append, List.mem_append, not_or,
      not_or] at hx
    rw [hd'' x, h.exchange.parent x (by rw [List.mem_append, not_or]; exact ⟨hx.1, hx.2.2⟩)]
    rw [List.mem_append, not_or]
    exact ⟨hx.2.1, fun hmem => hx.2.2 (left_subset _ _ hmem)⟩

/-- Where there are no trees, nothing has to be served. -/
theorem refl (hs : Stage d holder caller p before [] behind content) :
    Served d d caller p before [] behind content (fillAll content []) where
  wellFormed := hs.wellFormed
  row := hs.row
  offer := hs.offer
  exchange := .refl ..

/-- Trees that are served one after another are served. -/
theorem append {As Bs : List Placed} {d₁ d₂ : Document}
    (hs : Stage d holder caller p before (As ++ Bs) behind content)
    (hA : Served d d₁ caller p before As (Bs.map handle ++ behind) content (fillAll content As))
    (hB : Served d₁ d₂ caller p (before ++ (fillAll content As).trees.map handle) Bs behind
      (fillAll content As).left (fillAll (fillAll content As).left Bs)) :
    Served d d₂ caller p before (As ++ Bs) behind content (fillAll content (As ++ Bs)) := by
  -- the filled trees of the first part are made of nodes that are not up for change any more
  have htrees : ∀ x ∈ allHandles (fillAll content As).trees,
      x ∉ allHandles Bs ++ allHandles (fillAll content As).left ∧ x ≠ caller := fun x hx => by
    have hleft := (List.nodup_append'.1 (nodup_fillAll hs.left.nodup)).2.2 hx
    have horigin := (subperm_fillAll content As).subset (List.mem_append_left _ hx)
    rw [List.mem_append, not_or]
    refine ⟨⟨fun hBs => hs.behind_apart hBs horigin, hleft⟩, fun heq => ?_⟩
    rcases List.mem_append.1 horigin with hmem | hmem
    · exact hs.left.caller_out (heq ▸ hmem)
    · exact (hs.offer.apart x hmem).1 heq
  have hothers : ∀ x ∈ allHandles (fillAll content As).trees,
      x ∉ allHandles (fillAll (fillAll content As).left Bs).trees := fun x hx hmem =>
    (htrees x hx).1 ((subperm_fillAll _ Bs).subset (List.mem_append_left _ hmem))
  have hfirst : Row d₂ p before (fillAll content As).trees
      ((fillAll (fillAll content As).left Bs).trees.map handle ++ behind) := by
    refine ⟨hB.row.parent, ?_, hA.row.shows.frame hB.exchange.size.ge fun x hx =>
      hB.exchange.node_eq (htrees x hx).1 (hA.row.apart x hx).1 (htrees x hx).2, hA.row.nodup,
      fun x hx => ?_, fun x hx => ?_⟩
    · rw [hB.row.children]
      simp only [List.append_assoc]
    · obtain ⟨hxp, hxbefore, hxbehind⟩ := hA.row.apart x hx
      refine ⟨hxp, hxbefore, fun hmem => ?_⟩
      rcases List.mem_append.1 hmem with hmem | hmem
      · exact hothers x hx (map_handle_subset _ hmem)
      · exact hxbehind (List.mem_append_right _ hmem)
    · simp only [List.mem_append] at hx
      rcases hx with hx | hx | hx
      · exact hB.row.known x (List.mem_append_left _ (List.mem_append_left _ hx))
      · exact hB.row.lt x (map_handle_subset _ hx)
      · exact hB.row.known x (List.mem_append_right _ hx)
  rw [fillAll_append]
  refine ⟨hB.wellFormed, hfirst.append hB.row hothers, hB.offer,
    (hA.exchange.mono ?_).trans (hB.exchange.mono ?_)⟩
  · rw [allHandles_append, List.append_assoc, List.append_subset]
    exact ⟨List.subset_append_left _ _,
      List.subset_append_of_subset_right _ (List.subset_append_right _ _)⟩
  · rw [allHandles_append, List.append_assoc, List.append_subset]
    refine ⟨List.subset_append_of_subset_right _ (List.subset_append_left _ _), fun x hx => ?_⟩
    exact List.mem_append_right _ (List.mem_append_right _ (left_subset _ _ hx))

/-- A node that is no slot is served when the trees below it are. -/
theorem own (hs : Stage d holder caller p before [.node h c kids] behind content)
    (hc : Slot.demand? c = none)
    (hkids : Served d d' caller h [] kids [] content (fillAll content kids)) :
    Served d d' caller p before [.node h c kids] behind content
      (fill content (.node h c kids)) := by
  have hnodup := hs.nodup
  rw [allHandles_singleton, handles, List.cons_append, List.nodup_cons] at hnodup
  have hmem : ∀ {kids : List Placed} {x : Handle},
      x ∈ allHandles [Placed.node h c kids] ↔ x = h ∨ x ∈ allHandles kids := by
    intro kids x
    rw [allHandles_singleton, handles, List.mem_cons]
  have hp : p ∉ allHandles kids ++ allHandles content := fun hmem' => by
    rcases List.mem_append.1 hmem' with hmem' | hmem'
    · exact (hs.row.apart p (hmem.2 (.inr hmem'))).1 rfl
    · exact hs.parent_out hmem'
  have hph : p ≠ h := fun heq => (hs.row.apart h (hmem.2 (.inl rfl))).1 heq.symm
  have htrees : ∀ x ∈ allHandles (fillAll content kids).trees,
      x ∈ allHandles kids ++ allHandles content := fun x hx =>
    (subperm_fillAll content kids).subset (List.mem_append_left _ hx)
  have hnode : d'.node h = ⟨c, some p, (fillAll content kids).trees.map handle⟩ := by
    have hcontent : d.content h = c := congrArg Node.content hs.row.node_eq
    have hparent : d.parent? h = some p := congrArg Node.parent hs.row.node_eq
    refine node_ext ?_ ?_ hkids.row.children_eq
    · exact (hkids.exchange.content h).trans hcontent
    · exact (hkids.exchange.parent h hnodup.1).trans hparent
  have hsize := hkids.exchange.size
  rw [fill_own hc]
  refine ⟨hkids.wellFormed, ⟨hs.row.parent.trans_eq hsize.symm, ?_,
      ⟨⟨hkids.row.parent, hnode, hkids.row.shows⟩, trivial⟩,
    ?_, fun x hx => ?_, fun x hx => (hs.row.known x hx).trans_eq hsize.symm⟩, hkids.offer,
    ⟨hsize, hkids.exchange.content, fun x hx => hkids.exchange.parent x ?_,
      fun x hx _ hcaller => hkids.exchange.children x ?_ ?_ hcaller⟩⟩
  · rw [hkids.exchange.children p hp hph hs.parent_ne, hs.row.children]
    rfl
  · rw [allHandles_singleton, handles, List.nodup_cons]
    exact ⟨fun hmem' => hnodup.1 (htrees h hmem'), hkids.row.nodup⟩
  · rcases hmem.1 hx with rfl | hx
    · exact hs.row.apart x (hmem.2 (.inl rfl))
    rcases List.mem_append.1 (htrees x hx) with hx | hx
    · exact hs.row.apart x (hmem.2 (.inr hx))
    · exact ⟨fun heq => hs.parent_out (heq ▸ hx),
        fun hmem' => hs.sides x (List.mem_append_left _ hmem') hx,
        fun hmem' => hs.sides x (List.mem_append_right _ hmem') hx⟩
  all_goals rw [List.mem_append, hmem, not_or, not_or] at hx
  · rw [List.mem_append, not_or]
    exact ⟨hx.1.2, hx.2⟩
  · rw [List.mem_append, not_or]
    exact ⟨hx.1.2, hx.2⟩
  · exact hx.1.1

end Served

/-! ### A slot whose turn has come -/

section Slots

variable {kids l₁ taken l₂ : List Placed} {h : Handle} {c : Content}

/-- The nodes of a tree whose turn has come, one by one. -/
theorem Stage.apart (hs : Stage d holder caller p before [.node h c kids] behind content) :
    (h ≠ p ∧ h ∉ before ∧ h ∉ behind) ∧ h ≠ caller ∧ h ∉ allHandles kids ∧ h ∉ allHandles content ∧
      ∀ x ∈ allHandles kids,
        (x ≠ p ∧ x ∉ before ∧ x ∉ behind) ∧ x ≠ caller ∧ x ∉ allHandles content := by
  have hnodup := hs.nodup
  rw [allHandles_singleton, handles, List.cons_append, List.nodup_cons, List.mem_append, not_or]
    at hnodup
  have hmem : ∀ x, x = h ∨ x ∈ allHandles kids → x ∈ allHandles [Placed.node h c kids] := by
    intro x hx
    rwa [allHandles_singleton, handles, List.mem_cons]
  refine ⟨hs.row.apart h (hmem h (.inl rfl)), fun heq => hs.caller_out (hmem _ (.inl heq.symm)),
    hnodup.1.1, hnodup.1.2, fun x hx => ⟨hs.row.apart x (hmem x (.inr hx)), fun heq => ?_,
      hs.disjoint (hmem x (.inr hx))⟩⟩
  exact hs.caller_out (hmem _ (.inr (heq ▸ hx)))

/-- **The turn of a slot's children comes, in its place, when it finds nothing.** -/
theorem Stage.default (hs : Stage d holder caller p before [.node h c kids] behind content) :
    Stage (d.replaceWith h (kids.map handle)) holder caller p before kids behind content ∧
      Exchange d (d.replaceWith h (kids.map handle)) p caller
        (allHandles [.node h c kids] ++ allHandles content) := by
  obtain ⟨hh, hhcaller, hhkids, hhcontent, hkids⟩ := hs.apart
  have hne : ∀ x ∈ allHandles kids, x ≠ h := fun x hx heq => hhkids (heq ▸ hx)
  obtain ⟨hrep, hrow⟩ := hs.row.replace hs.row.below.parent hh.1.symm hs.row.below.shows
    hs.row.below.nodup (fun x hx => (hkids x hx).1) fun x hx => ⟨hne x hx, hne x hx⟩
  have hwell : (d.replaceWith h (kids.map handle)).WellFormed :=
    hs.wellFormed.replaceWith fun r hr => by
      have hparent := hs.row.below.shows.parent_of_mem hr
      exact ⟨lt_of_parent hparent, fun _ hb =>
        (hs.wellFormed.ends r).not_below_self (.up hparent hb)⟩
  simp only [handle] at hrep hrow
  generalize d.replaceWith h (kids.map handle) = d' at hrep hrow hwell
  have hother : ∀ x, x ∉ allHandles [Placed.node h c kids] → x ≠ h ∧ x ∉ kids.map handle := by
    intro x hx
    rw [allHandles_singleton, handles, List.mem_cons, not_or] at hx
    exact ⟨hx.1, fun hmem => hx.2 (map_handle_subset kids hmem)⟩
  have hparent : ∀ x ∉ allHandles [Placed.node h c kids], d'.parent? x = d.parent? x := by
    intro x hx
    rw [hrep.parent, if_neg (hother x hx).1, if_neg (hother x hx).2]
  have hsubset : allHandles kids ⊆ allHandles [Placed.node h c kids] := by
    rw [allHandles_singleton, handles]
    exact List.subset_cons_self _ _
  have hoffer : Row d' caller [] content [] := by
    refine hs.offer.frame hrep.size.ge fun x hx => ?_
    have hout : x ∉ allHandles [Placed.node h c kids] ∧ x ≠ p := by
      rcases hx with rfl | hx
      · exact ⟨hs.caller_out, hs.parent_ne.symm⟩
      · exact ⟨fun hmem => hs.disjoint hmem hx, fun heq => hs.parent_out (heq ▸ hx)⟩
    exact hrep.node_eq hout.2 (hother x hout.1).1 (hother x hout.1).1 (hother x hout.1).2
  refine ⟨⟨hwell, hrow, hoffer, ?_, hs.parent_out, hs.parent_ne,
      fun hmem => hs.caller_out (hsubset hmem),
    fun hmem => hs.holder_out (hsubset hmem), hs.sides, fun d'' hd'' => hs.up d'' fun x hx => ?_⟩,
    hrep.size, hrep.content, fun x hx => hparent x fun hmem => hx (List.mem_append_left _ hmem),
    fun x hx hxp _ => hrep.rest x hxp ?_⟩
  · exact List.nodup_append'.2 ⟨hrow.nodup, hs.offer.nodup, fun x hx => (hkids x hx).2.2⟩
  · rw [List.mem_append, not_or] at hx
    rw [hd'' x, hparent x hx.1]
    rw [List.mem_append, not_or]
    exact ⟨fun hmem => hx.1 (hsubset hmem), hx.2⟩
  · exact (hother x fun hmem => hx (List.mem_append_left _ hmem)).1

/-- **A slot that finds something is replaced by it, and no slot below it is met any more.** -/
theorem Stage.received
    (hs : Stage d holder caller p before [.node h c kids] behind (l₁ ++ taken ++ l₂)) :
    (d.replaceWith h (taken.map handle)).WellFormed ∧
      Row (d.replaceWith h (taken.map handle)) p before taken behind ∧
      Row (d.replaceWith h (taken.map handle)) caller [] (l₁ ++ l₂) [] ∧
      Exchange d (d.replaceWith h (taken.map handle)) p caller
        (allHandles [.node h c kids] ++ allHandles (l₁ ++ taken ++ l₂)) ∧
      ∀ slot ∈ allHandles kids,
        (d.replaceWith h (taken.map handle)).isWithin slot holder = false := by
  obtain ⟨hh, hhcaller, hhkids, hhcontent, hkids⟩ := hs.apart
  have hsubset : allHandles taken ⊆ allHandles (l₁ ++ taken ++ l₂) ∧
      allHandles (l₁ ++ l₂) ⊆ allHandles (l₁ ++ taken ++ l₂) := by
    simp only [allHandles_append]
    exact ⟨by grind, by grind⟩
  obtain ⟨hshows, hnodup⟩ : d.ShowsAll (some caller) taken ∧ (allHandles taken).Nodup := by
    have hright := hs.offer.left.right
    exact ⟨hright.shows, hright.nodup⟩
  obtain ⟨hrep, hrow⟩ := hs.row.replace hs.offer.parent hs.parent_ne hshows hnodup
    (fun x hx => ⟨fun heq => hs.parent_out (heq ▸ hsubset.1 hx),
      fun hmem => hs.sides x (List.mem_append_left _ hmem) (hsubset.1 hx),
      fun hmem => hs.sides x (List.mem_append_right _ hmem) (hsubset.1 hx)⟩)
    fun x hx => ⟨(hs.offer.apart x (hsubset.1 hx)).1, fun (heq : x = h) =>
      hhcontent (heq ▸ hsubset.1 hx)⟩
  have hS : ∀ x ∈ taken.map handle, x ∉ (Placed.node h c kids).handles := fun x hx hmem =>
    hs.disjoint (allHandles_singleton _ ▸ hmem) (hsubset.1 (map_handle_subset _ hx))
  have hloose := hs.row.loose hrep ⟨fun hmem => hs.caller_out (allHandles_singleton _ ▸ hmem), hS⟩
  have hwell : (d.replaceWith h (taken.map handle)).WellFormed :=
    hs.wellFormed.replaceWith fun r hr => by
      refine ⟨lt_of_parent (hshows.parent_of_mem hr), fun _ hb => hhcontent (hsubset.1 ?_)⟩
      obtain ⟨C, hC, rfl⟩ := List.mem_map.1 hr
      refine handles_subset hC (C.handles_eq ▸ List.mem_cons_of_mem _ ?_)
      exact (hs.wellFormed.mem_iff_below (hshows.of_mem hC)).2 hb
  refine ⟨hwell, hrow, hs.offer.leave hrep ⟨fun hmem => hs.parent_out (hsubset.2 hmem),
    fun hmem => hhcontent (hsubset.2 hmem)⟩, ⟨hrep.size, hrep.content, fun x hx => ?_,
      fun x _ hxp hxcaller => hrep.rest x hxp hxcaller⟩, fun slot hslot => ?_⟩
  · rw [List.mem_append, not_or, allHandles_singleton] at hx
    refine (hrep.parent x).trans ?_
    have hxh : x ≠ (Placed.node h c kids).handle := fun heq => hx.1 (heq ▸ Placed.handle_mem _)
    rw [if_neg hxh, if_neg fun hmem => hx.2 (hsubset.1 (map_handle_subset _ hmem))]
  · rw [Bool.eq_false_iff, Ne, isWithin_iff_below]
    intro hbelow
    have hmem := hloose.mem_of_below hbelow (List.mem_cons_of_mem h hslot)
    exact hs.holder_out (allHandles_singleton _ ▸ hmem)

end Slots

/-! ### All slots -/

/-- The slots of some trees have been served. -/
def ServesTo (d : Document) (holder caller p : Handle) (before : List Handle) (Ps : List Placed)
    (behind : List Handle) (content : List Placed) (slots : List Handle) (f : Filling) : Prop :=
  ∃ d' : Document,
    (∀ notes, slots.foldl (noteSlot holder caller) (d, notes) = (d', notes ++ f.notes)) ∧
    Served d d' caller p before Ps behind content f

mutual
/-- **Each slot is served**: the loop over the slots of one tree fills that tree. -/
theorem serves {d : Document} {holder caller p : Handle} {before behind : List Handle}
    {content : List Placed} {P : Placed} (hs : Stage d holder caller p before [P] behind content) :
    ServesTo d holder caller p before [P] behind content P.slots (P.fill content) := by
  obtain ⟨h, c, kids⟩ := P
  have hcontent : d.content h = c := congrArg Node.content hs.row.node_eq
  rcases hc : Slot.demand? c with _ | demand
  · obtain ⟨d', hfold, hkids⟩ := servesAll hs.below
    have hslots : slots (.node h c kids) = slotsAll kids := by rw [slots, hc]; rfl
    refine ⟨d', fun notes => ?_, .own hs hc hkids⟩
    rw [hslots, hfold, fill_own hc]
    rfl
  have hslots : slots (.node h c kids) = h :: slotsAll kids := by rw [slots, hc]; rfl
  have hfound := slotContent_eq (hcontent.symm ▸ hc) hs.offer.shows hs.offer.children_eq
  rw [hslots]
  by_cases htake : (Slot.take target? demand content).1 = []
  · obtain ⟨hstage, hexchange⟩ := hs.default
    obtain ⟨d', hfold, hkids⟩ := servesAll hstage
    rw [htake, List.map_nil] at hfound
    refine ⟨d', fun notes => ?_, ?_⟩
    · rw [List.foldl_cons, noteSlot_default hs.isWithin hfound, hs.row.below.children_eq, hfold,
        fill_default hc htake]
    · rw [fill_default hc htake]
      refine ⟨hkids.wellFormed, hkids.row, hkids.offer,
        hexchange.trans (hkids.exchange.mono fun x hx => ?_)⟩
      rw [allHandles_singleton, handles]
      exact List.mem_cons_of_mem h hx
  · obtain ⟨l₁, l₂, hsplit, hleft⟩ := Slot.take_split target? demand content
    have hfill : fill content (.node h c kids) = _ := fill_received hc htake
    generalize Slot.take target? demand content = r at hfound htake hsplit hleft hfill
    obtain ⟨taken, left⟩ := r
    simp only at hfound htake hsplit hleft hfill
    subst hsplit hleft
    obtain ⟨hwell, hrow, hoffer, hexchange, hskip⟩ := hs.received
    refine ⟨_, fun notes => ?_, by rw [hfill]; exact ⟨hwell, hrow, hoffer, hexchange⟩⟩
    have hne : d.slotContent caller h ≠ [] := by
      rw [hfound]
      simpa using htake
    rw [List.foldl_cons, noteSlot_received hs.isWithin hne, hfound, foldl_noteSlot_skipped
      fun slot hslot => hskip slot ((slotsAll_sublist kids).subset hslot), hfill]
    rfl

/-- **Serving the slots of trees in place fills the trees.** -/
theorem servesAll {d : Document} {holder caller p : Handle} {before behind : List Handle}
    {content Ps : List Placed} (hs : Stage d holder caller p before Ps behind content) :
    ServesTo d holder caller p before Ps behind content (slotsAll Ps) (fillAll content Ps) := by
  match Ps with
  | [] => exact ⟨d, fun notes => by simp [slotsAll, fillAll, Filling.notes], .refl hs⟩
  | P :: Ps =>
    have hs' : Stage d holder caller p before ([P] ++ Ps) behind content := hs
    obtain ⟨d₁, hfold, hP⟩ := serves hs'.left
    rw [← fillAll_singleton] at hfold hP
    obtain ⟨d₂, hfold', hPs⟩ := servesAll (Served.next hs' hP)
    refine ⟨d₂, fun notes => ?_, .append hs' hP hPs⟩
    rw [slotsAll, List.foldl_append, hfold, hfold', List.append_assoc, notes_cons content P Ps,
      fillAll_singleton]
end

end Document
end Markup
end HtmlCompose
