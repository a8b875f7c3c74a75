/-
# Filling slots in place loses and doubles nothing

What a document looks like after its slots have been filled in place (`Projected`), told of
the document before:

| node of the document before | in the document after |
| --- | --- |
| a child of the caller | where it was, or once below the holder; as it was in both cases |
| a slot below the holder | not below the holder |
| below a slot that has received something | not below the holder |
| any other node below the holder | there, in the old order |
| elsewhere | as it was |

The children of the holder, and of each node that is still below it, are what stands in the
places of the old ones (`standIn`): default content stands where its slot stood.

The trees after it are those of `Slot.fillForest`, which is what rendering fills slots with.
`apart_hold` says that filling slots is called for as it may be.
-/
import HtmlCompose.Proofs.Resolve.Projection

namespace HtmlCompose
namespace Markup
namespace Document

open Placed

variable {d d' : Document} {holder caller : Handle} {notes : List (Handle × List Handle)}

/-! ### Before -/

/-- The holder has no parent, and the caller is neither the holder nor below it. -/
structure Apart (d : Document) (holder caller : Handle) : Prop where
  wellFormed : d.WellFormed
  holder_lt : holder < d.size
  caller_lt : caller < d.size
  top : d.parent? holder = none
  ne : caller ≠ holder
  outside : d.isWithin caller holder = false

/-- **Markup that has just been put below a new holder is apart from every older node.** -/
theorem apart_hold (hd : d.WellFormed) (hcaller : caller < d.size) (markup : Forest) :
    Apart (d.hold markup).1 (d.hold markup).2 caller := by
  have hcreate : d.size < (d.create .fragment).1.size := by
    rw [size_create]
    exact Nat.lt_succ_self _
  obtain ⟨Ps, -, hholder, -, hfresh, hframe⟩ :=
    adoptInto_spec (d.create .fragment).1 d.size markup hcreate
  have hwell : ((d.create .fragment).1.adoptInto d.size markup).WellFormed :=
    (hd.create _).adoptInto hcreate markup
  have hle : (d.create .fragment).1.size ≤
      ((d.create .fragment).1.adoptInto d.size markup).size := hfresh.size ▸ Nat.le_add_right _ _
  show Apart ((d.create .fragment).1.adoptInto d.size markup) d.size caller
  generalize (d.create .fragment).1.adoptInto d.size markup = e at hholder hframe hwell hle
  have hparent : ∀ x < d.size, e.parent? x = d.parent? x := fun x hx => by
    rw [parent?, hframe x (hx.trans hcreate) hx.ne, node_create_of_lt hx, parent?]
  refine ⟨hwell, hcreate.trans_le hle, (hcaller.trans hcreate).trans_le hle, ?_, hcaller.ne, ?_⟩
  · rw [parent?, hholder, node_create_self]
  · have hout : ∀ {x a : Handle}, e.Below x a → x < d.size → a < d.size := by
      intro x a hbelow
      induction hbelow with
      | child hp => exact fun hx => hd.parent_lt ((hparent _ hx).symm.trans hp)
      | up hp _ ih => exact fun hx => ih (hd.parent_lt ((hparent _ hx).symm.trans hp))
    rw [Bool.eq_false_iff, Ne, isWithin_iff_below]
    exact fun hbelow => lt_irrefl _ (hout hbelow hcaller)

/-! ### What stands in the place of a node -/

/-- What stands in the place of a node, down to a depth. -/
def standInWithin (d : Document) (notes : List (Handle × List Handle)) : Nat → Handle → List Handle
  | 0, _ => []
  | n + 1, h =>
    if d.isElement Directive.slotTag h then
      match notes.lookup h with
      | some content => content
      | none => (d.children h).flatMap (d.standInWithin notes n)
    else [h]

/-- What stands in the place of a node: for a slot what it has received, or else what stands in the
places of its children, and for every other node the node itself. -/
def standIn (d : Document) (notes : List (Handle × List Handle)) (h : Handle) : List Handle :=
  d.standInWithin notes d.size h

mutual
/-- With fuel for all its nodes, what stands in for a shown tree is read off the tree. -/
theorem Shows.standInWithin_eq {d : Document} {parent : Option Handle} {P : Placed}
    (hP : d.Shows parent P) (notes : List (Handle × List Handle)) {n : Nat}
    (hn : P.handles.length ≤ n) : d.standInWithin notes n P.handle = P.stand notes := by
  obtain ⟨h, c, kids⟩ := P
  have hc : d.content h = c := congrArg Node.content hP.2.1
  have hchildren : d.children h = kids.map handle := congrArg Node.children hP.2.1
  rw [handles, List.length_cons] at hn
  obtain ⟨n, rfl⟩ : ∃ k, n = k + 1 := ⟨n - 1, by omega⟩
  have hkids := ShowsAll.standInWithin_eq hP.2.2 notes (n := n) (by omega)
  rcases hlookup : notes.lookup h with _ | content <;>
    simp only [standInWithin, stand, handle, isElement_slotTag, hc, hchildren, hkids, hlookup]

/-- With fuel for all their nodes, what stands in for shown trees is read off the trees. -/
theorem ShowsAll.standInWithin_eq {d : Document} {parent : Option Handle} {Ps : List Placed}
    (hPs : d.ShowsAll parent Ps) (notes : List (Handle × List Handle)) {n : Nat}
    (hn : (allHandles Ps).length ≤ n) :
    (Ps.map handle).flatMap (d.standInWithin notes n) = standAll notes Ps := by
  match Ps with
  | [] => rfl
  | P :: Ps =>
    rw [allHandles, List.length_append] at hn
    rw [List.map_cons, List.flatMap_cons, Shows.standInWithin_eq hPs.1 notes (by omega),
      ShowsAll.standInWithin_eq hPs.2 notes (by omega), standAll]
end

/-- What stands in the place of shown trees is read off the trees. -/
theorem ShowsAll.standIn_eq {parent : Option Handle} {Ps : List Placed}
    (hPs : d.ShowsAll parent Ps) (hnodup : (allHandles Ps).Nodup)
    (notes : List (Handle × List Handle)) :
    (Ps.map handle).flatMap (d.standIn notes) = standAll notes Ps :=
  hPs.standInWithin_eq notes (length_le_of_nodup hnodup hPs.lt)

/-- What stands in the place of a node follows from what stands in the places of its children. -/
theorem WellFormed.standIn_eq (hd : d.WellFormed) {h : Handle} (hh : h < d.size)
    (notes : List (Handle × List Handle)) :
    d.standIn notes h =
      if d.isElement Directive.slotTag h then
        match notes.lookup h with
        | some content => content
        | none => (d.children h).flatMap (d.standIn notes)
      else [h] := by
  obtain ⟨P, rfl, hP⟩ := hd.exists_shows hh
  have hnodup := hd.nodup_of_shows hP
  have hstand := hP.standInWithin_eq notes (length_le_of_nodup hnodup hP.lt)
  obtain ⟨h, c, kids⟩ := P
  have hc : d.content h = c := congrArg Node.content hP.2.1
  have hchildren : d.children h = kids.map handle := congrArg Node.children hP.2.1
  have hkids := hP.2.2.standIn_eq (List.nodup_cons.1 hnodup).2 notes
  rw [standIn, hstand]
  rcases hlookup : notes.lookup h with _ | content <;>
    simp only [stand, handle, isElement_slotTag, hc, hchildren, hkids, hlookup]

/-! ### After -/

/-- A node is no slot and does not lie below a slot that has received something. -/
def stays (d : Document) (notes : List (Handle × List Handle)) (x : Handle) : Bool :=
  !d.isElement Directive.slotTag x && notes.all fun note => !d.isWithin x note.1

/-- What filling the slots below a holder from below a caller has come to. -/
structure Projected (d d' : Document) (holder caller : Handle) (projected : List Handle) :
    Prop where
  /-- parents and children agree still -/
  wellFormed : d'.WellFormed
  /-- nothing but links has changed -/
  content : d'.size = d.size ∧ ∀ x, d'.content x = d.content x
  /-- nodes elsewhere stay as they are -/
  frame : ∀ x, x ≠ holder → x ≠ caller → d.isWithin x holder = false →
    d.isWithin x caller = false → d'.node x = d.node x
  /-- each child of the caller keeps all that is below it -/
  kept : ∀ c ∈ d.children caller, d'.children c = d.children c ∧ d'.tree c = d.tree c ∧
    d'.descendants c = d.descendants c ∧ ∀ x ∈ d.descendants c, d'.node x = d.node x
  /-- it stays where it is, or gets one place below the holder -/
  placed : ∀ c ∈ d.children caller,
    (c ∈ d'.children caller ∧ c ∉ d'.descendants holder) ∨
      (c ∉ d'.children caller ∧ (d'.descendants holder).count c = 1)
  /-- the children that have got a place, each once -/
  nodup : projected.Nodup
  mem_projected : ∀ c, c ∈ projected ↔ c ∈ d.children caller ∧ c ∈ d'.descendants holder
  /-- they are what the slots have received -/
  noted : projected = (d.deliveries holder caller).flatMap Prod.snd
  /-- no slot is left below the holder -/
  slots : ∀ s ∈ d.findElements holder Directive.slotTag, d'.isWithin s holder = false
  /-- what is left of the markup below the holder, in the old order -/
  order : (d'.descendants holder).filter (d.isWithin · holder) =
    (d.descendants holder).filter (d.stays (d.deliveries holder caller))
  /-- where everything stands -/
  stands : ∀ x,
    x = holder ∨ d.isWithin x holder = true ∧ d.stays (d.deliveries holder caller) x = true →
    d'.children x = (d.children x).flatMap (d.standIn (d.deliveries holder caller))
  /-- the trees are the filled ones -/
  filled : (d'.children holder).map d'.tree =
      Filled.toForest id (Slot.fillForest Slot.target? ((d.children caller).map d.tree)
        ((d.children holder).map d.tree)).1 ∧
    (d'.children caller).map d'.tree =
      (Slot.fillForest Slot.target? ((d.children caller).map d.tree)
        ((d.children holder).map d.tree)).2

/-! ### From the trees to the document -/

mutual
/-- Two documents that show a tree below one parent have the same nodes there. -/
theorem Shows.node_unique {d d' : Document} {parent : Option Handle} {P : Placed} {x : Handle}
    (h : d.Shows parent P) (h' : d'.Shows parent P) (hx : x ∈ P.handles) :
    d'.node x = d.node x := by
  obtain ⟨y, c, kids⟩ := P
  rw [handles, List.mem_cons] at hx
  rcases hx with rfl | hx
  · exact h'.2.1.trans h.2.1.symm
  · exact ShowsAll.node_unique h.2.2 h'.2.2 hx

/-- Where two documents show the same trees, their nodes are equal. -/
theorem ShowsAll.node_unique {d d' : Document} {parent : Option Handle} {Ps : List Placed}
    {x : Handle} (h : d.ShowsAll parent Ps) (h' : d'.ShowsAll parent Ps)
    (hx : x ∈ allHandles Ps) : d'.node x = d.node x := by
  match Ps with
  | [] => exact absurd hx List.not_mem_nil
  | P :: Ps =>
    rw [allHandles, List.mem_append] at hx
    exact hx.elim (Shows.node_unique h.1 h'.1) (ShowsAll.node_unique h.2 h'.2)
end

/-- A tree that is moved takes along all that is below it. -/
theorem Shows.kept {p p' : Option Handle} {P : Placed} (h : d.Shows p P) (h' : d'.Shows p' P)
    (hnodup : P.handles.Nodup) : d'.children P.handle = d.children P.handle ∧
      d'.tree P.handle = d.tree P.handle ∧ d'.descendants P.handle = d.descendants P.handle ∧
      ∀ x ∈ d.descendants P.handle, d'.node x = d.node x := by
  rw [h.tree_eq hnodup, h'.tree_eq hnodup, h.descendants_eq hnodup, h'.descendants_eq hnodup]
  obtain ⟨y, c, kids⟩ := P
  refine ⟨?_, rfl, rfl, fun x hx => h.2.2.node_unique h'.2.2 hx⟩
  rw [children, children, handle, h.2.1, h'.2.1]

section Stays

variable {content kids : List Placed} {p : Option Handle}

/-- What stays of a row of trees, as its slots and the notes of its filling tell. -/
theorem stays_iff (hd : d.WellFormed) (hkids : d.ShowsAll p kids) {x : Handle}
    (hx : x ∈ allHandles kids) : d.stays (fillAll content kids).notes x = true ↔
      Keeps (slotsAll kids) (fillAll content kids).deliveries x := by
  have hslot : x ∈ slotsAll kids ↔ d.isElement Directive.slotTag x = true := by
    rw [← hkids.filter_slots, List.mem_filter, and_iff_right hx]
  have hbelow : ∀ D ∈ (fillAll content kids).deliveries,
      (x ∈ allHandles D.slot.children ↔ d.isWithin x D.slot.handle = true) := fun D hD => by
    obtain ⟨q, hshows⟩ := shows_slot_all hkids hD
    rw [hd.mem_iff_below hshows, isWithin_iff_below]
  rw [stays, Keeps, Bool.and_eq_true, Bool.not_eq_true', ← Bool.not_eq_true, ← hslot, Filling.notes,
    List.all_map, List.all_eq_true]
  refine and_congr_right fun _ => forall₂_congr fun D hD => ?_
  rw [hbelow D hD, Function.comp_apply, Bool.not_eq_true', Bool.not_eq_true]

end Stays

mutual
/-- Nodes that stay have what stands in the places of their children. -/
theorem stands_of_fill {d d' : Document} {p p' : Option Handle} {content : List Placed} {P : Placed}
    {notes : List (Handle × List Handle)} {x : Handle} (hP : d.Shows p P)
    (hP' : d'.ShowsAll p' (P.fill content).trees) (hnodup : P.handles.Nodup)
    (hnotes : ∀ h ∈ P.slots, notes.lookup h = (P.fill content).notes.lookup h)
    (hx : x ∈ P.handles) (hkeeps : Keeps P.slots (P.fill content).deliveries x) :
    d'.children x = (d.children x).flatMap (d.standIn notes) := by
  obtain ⟨h, c, kids⟩ := P
  obtain ⟨hh, hkids⟩ := List.nodup_cons.1 hnodup
  rw [handles, List.mem_cons] at hx
  have hbelow : Keeps (slots (.node h c kids)) (fillAll content kids).deliveries x →
      Keeps (slotsAll kids) (fillAll content kids).deliveries x := fun hkeeps =>
    ⟨fun hmem => hkeeps.1 (slotsAll_subset_slots h c kids hmem), hkeeps.2⟩
  rcases hc : Slot.demand? c with _ | demand
  · rw [fill_own hc] at hP' hkeeps
    have hnotes' := lookup_notes_below (by rw [fill_own hc]; rfl) hnotes
    rcases hx with rfl | hx
    · have hold : d.children x = kids.map handle := congrArg Node.children hP.2.1
      have hnew : d'.children x = (fillAll content kids).trees.map handle :=
        congrArg Node.children hP'.1.2.1
      rw [hold, hnew, hP.2.2.standIn_eq hkids, map_handle_fillAll hkids hnotes']
    · exact stands_of_fillAll hP.2.2 hP'.1.2.2 hkids hnotes' hx (hbelow hkeeps)
  · have hslot : slots (.node h c kids) = h :: slotsAll kids := by rw [slots, hc]; rfl
    have hx : x ∈ allHandles kids := by
      refine hx.resolve_left fun heq => hkeeps.1 ?_
      rw [hslot, heq]
      exact List.mem_cons_self
    by_cases htake : (Slot.take target? demand content).1 = []
    · rw [fill_default hc htake] at hP' hkeeps
      exact stands_of_fillAll hP.2.2 hP' hkids (lookup_notes_below (by rw [fill_default hc htake])
        hnotes) hx (hbelow hkeeps)
    · rw [fill_received hc htake] at hkeeps
      exact absurd hx (hkeeps.2 _ (List.mem_singleton_self _))

/-- A node that the filling keeps has for children what stands in the places of its own. -/
theorem stands_of_fillAll {d d' : Document} {p p' : Option Handle} {content Ps : List Placed}
    {notes : List (Handle × List Handle)} {x : Handle} (hPs : d.ShowsAll p Ps)
    (hPs' : d'.ShowsAll p' (fillAll content Ps).trees) (hnodup : (allHandles Ps).Nodup)
    (hnotes : ∀ h ∈ slotsAll Ps, notes.lookup h = (fillAll content Ps).notes.lookup h)
    (hx : x ∈ allHandles Ps) (hkeeps : Keeps (slotsAll Ps) (fillAll content Ps).deliveries x) :
    d'.children x = (d.children x).flatMap (d.standIn notes) := by
  match Ps with
  | [] => exact absurd hx List.not_mem_nil
  | P :: Ps =>
    obtain ⟨hP, hrest⟩ := lookup_notes_cons hnodup hnotes
    rw [allHandles, List.nodup_append'] at hnodup
    rw [allHandles, List.mem_append] at hx
    rw [fillAll, showsAll_append] at hPs'
    rw [Keeps, slotsAll, List.mem_append, not_or, fillAll, List.forall_mem_append] at hkeeps
    rcases hx with hx | hx
    · exact stands_of_fill hPs.1 hPs'.1 hnodup.1 hP hx ⟨hkeeps.1.1, hkeeps.2.1⟩
    · exact stands_of_fillAll hPs.2 hPs'.2 hnodup.2.1 hrest hx ⟨hkeeps.1.2, hkeeps.2.2⟩
end

/-! ### The theorem -/

/-- At the start the turn of all trees below the holder has come, and all that is below the caller
is left. -/
theorem Apart.stage (h : Apart d holder caller) : ∃ c kids c' content,
    d.Shows none (.node holder c kids) ∧ d.Shows (d.parent? caller) (.node caller c' content) ∧
      Stage d holder caller holder [] kids [] content := by
  obtain ⟨P, hhandle, hP⟩ := h.wellFormed.exists_shows h.holder_lt
  obtain ⟨Q, hhandle', hQ⟩ := h.wellFormed.exists_shows h.caller_lt
  obtain ⟨y, c, kids⟩ := P
  obtain ⟨z, c', content⟩ := Q
  obtain rfl : y = holder := hhandle
  obtain rfl : z = caller := hhandle'
  rw [h.top] at hP
  have hnodup := h.wellFormed.nodup_of_shows hP
  have hnodup' := h.wellFormed.nodup_of_shows hQ
  have houtside : ¬d.Below z y := by
    rw [← isWithin_iff_below, h.outside]
    exact Bool.false_ne_true
  have hdisjoint : ∀ x ∈ handles (.node y c kids), x ∉ handles (.node z c' content) :=
    fun x hx hx' => apart_of_not_below h.ne.symm (not_below_of_top h.top z) houtside
      (hP.eq_or_below hx) (hQ.eq_or_below hx')
  obtain ⟨hrow, hoffer⟩ := And.intro (Row.of_shows hP hnodup) (Row.of_shows hQ hnodup')
  refine ⟨c, kids, c', content, hP, hQ, h.wellFormed, hrow, hoffer, ?_,
    fun hmem => hdisjoint y List.mem_cons_self (List.mem_cons_of_mem z hmem), h.ne.symm,
    fun hmem => hdisjoint z (List.mem_cons_of_mem y hmem) List.mem_cons_self,
    fun hmem => (hrow.apart y hmem).1 rfl, by simp, fun _ _ => .inl rfl⟩
  exact List.nodup_append'.2 ⟨hrow.nodup, hoffer.nodup, fun x hx hx' =>
    hdisjoint x (List.mem_cons_of_mem y hx) (List.mem_cons_of_mem z hx')⟩

/-- Filling slots in place is filling the trees below the holder from those below the caller. -/
theorem projectSlots_served {c : Content} {kids content : List Placed}
    (hholder : d.Shows none (.node holder c kids))
    (hs : Stage d holder caller holder [] kids [] content) :
    Served d (d.projectSlots holder caller).1 caller holder [] kids [] content
        (fillAll content kids) ∧
      (d.projectSlots holder caller).2 = (fillAll content kids).received.map handle ∧
      d.deliveries holder caller = (fillAll content kids).notes := by
  have hbelow : d.descendants holder = allHandles kids :=
    hholder.descendants_eq (hs.wellFormed.nodup_of_shows hholder)
  have hfind : d.findElements holder Directive.slotTag = slotsAll kids := by
    rw [findElements, hbelow, hholder.2.2.filter_slots]
  obtain ⟨d', hfold, hserved⟩ := servesAll hs
  have hnotes : d.deliveries holder caller = (fillAll content kids).notes := by
    rw [deliveries, hfind, hfold, List.nil_append]
  have hdoc : (d.projectSlots holder caller).1 = d' := by
    rw [projectSlots_eq, hfind, hfold]
  refine ⟨hdoc ▸ hserved, ?_, hnotes⟩
  rw [projectSlots_eq, hnotes, Filling.notes, List.flatMap_map, Filling.received, List.map_flatMap]

/-- A node whose links up are not touched tops what is below it now. -/
theorem Exchange.shows {p h : Handle} {region : List Handle} {parent : Option Handle} {c : Content}
    {kids kids' : List Placed} (hexchange : Exchange d d' p caller region)
    (hP : d.Shows parent (.node h c kids)) (hh : h ∉ region) (hrow : Row d' h [] kids' []) :
    d'.Shows parent (.node h c kids') := by
  have hcontent : d.content h = c := congrArg Node.content hP.2.1
  have hparent : d.parent? h = parent := congrArg Node.parent hP.2.1
  exact ⟨hrow.parent, node_ext ((hexchange.content h).trans hcontent)
    ((hexchange.parent h hh).trans hparent) hrow.children_eq, hrow.shows⟩

/-- What is below the holder and below the caller, before and after. -/
structure Outcome (d d' : Document) (holder caller : Handle) (c c' : Content)
    (kids content : List Placed) : Prop where
  before : d.WellFormed
  after : d'.WellFormed
  nodup : (allHandles kids ++ allHandles content).Nodup
  exchange : Exchange d d' holder caller (allHandles kids ++ allHandles content)
  markup : d.Shows none (.node holder c kids)
  markup' : d'.Shows none (.node holder c (fillAll content kids).trees)
  offer : d.Shows (d.parent? caller) (.node caller c' content)
  offer' : d'.Shows (d.parent? caller) (.node caller c' (fillAll content kids).left)

/-- **The outcome of a projection**, with the content handed over and the deliveries that fill the
component's trees. -/
theorem Apart.outcome (h : Apart d holder caller) : ∃ c c' kids content,
    Outcome d (d.projectSlots holder caller).1 holder caller c c' kids content ∧
      (d.projectSlots holder caller).2 = (fillAll content kids).received.map handle ∧
      d.deliveries holder caller = (fillAll content kids).notes := by
  obtain ⟨c, kids, c', content, hmarkup, hoffer, hs⟩ := h.stage
  obtain ⟨hserved, hprojected, hnotes⟩ := projectSlots_served hmarkup hs
  have hexchange := hserved.exchange
  have hholder : holder ∉ allHandles kids ++ allHandles content := by
    rw [List.mem_append, not_or]
    exact ⟨hs.holder_out, hs.parent_out⟩
  have hcaller : caller ∉ allHandles kids ++ allHandles content := by
    rw [List.mem_append, not_or]
    exact ⟨hs.caller_out, fun hmem => (hs.offer.apart caller hmem).1 rfl⟩
  exact ⟨c, c', kids, content, ⟨h.wellFormed, hserved.wellFormed, hs.nodup, hexchange, hmarkup,
    hexchange.shows hmarkup hholder hserved.row, hoffer,
    hexchange.shows hoffer hcaller hserved.offer⟩, hprojected, hnotes⟩

namespace Outcome

variable {c c' : Content} {kids content : List Placed}

section Views

variable (h : Outcome d d' holder caller c c' kids content)
include h

/-- The caller keeps the content that is left. -/
theorem children_caller : d.children caller = content.map handle ∧
    d'.children caller = (fillAll content kids).left.map handle :=
  ⟨congrArg Node.children h.offer.2.1, congrArg Node.children h.offer'.2.1⟩

/-- The holder's children are the filled trees. -/
theorem children_holder : d.children holder = kids.map handle ∧
    d'.children holder = (fillAll content kids).trees.map handle :=
  ⟨congrArg Node.children h.markup.2.1, congrArg Node.children h.markup'.2.1⟩

/-- The nodes below the holder are those of the filled trees. -/
theorem descendants_holder : d.descendants holder = allHandles kids ∧
    d'.descendants holder = allHandles (fillAll content kids).trees :=
  ⟨h.markup.descendants_eq (h.before.nodup_of_shows h.markup),
    h.markup'.descendants_eq (h.after.nodup_of_shows h.markup')⟩

/-- A node is inside the holder just if it is one of the filled trees. -/
theorem isWithin_holder (x : Handle) : (d.isWithin x holder = true ↔ x ∈ allHandles kids) ∧
    (d'.isWithin x holder = true ↔ x ∈ allHandles (fillAll content kids).trees) := by
  rw [isWithin_iff_below, isWithin_iff_below]
  exact ⟨(h.before.mem_iff_below h.markup).symm, (h.after.mem_iff_below h.markup').symm⟩

/-- The content that has been received, and that which is left, are apart. -/
theorem nodup_content : (allHandles (fillAll content kids).received).Nodup ∧
    (allHandles (fillAll content kids).left).Nodup ∧
    (allHandles (fillAll content kids).received).Disjoint
      (allHandles (fillAll content kids).left) := by
  rw [← List.nodup_append', ← allHandles_append]
  exact (allHandles_perm (perm_fillAll content kids)).nodup_iff.2 (List.nodup_append'.1 h.nodup).2.1

/-- A tree of the content has been received, and is below the holder, or is left, and is not. -/
theorem placed {C : Placed} (hC : C ∈ content) :
    (C ∈ (fillAll content kids).received ∧ C.handle ∉ d'.children caller ∧
        C.handles ⊆ d'.descendants holder ∧ ∃ p, d'.Shows p C) ∨
      (C ∈ (fillAll content kids).left ∧ C.handle ∈ d'.children caller ∧
        C.handle ∉ d'.descendants holder ∧ ∃ p, d'.Shows p C) := by
  have hmem := (perm_fillAll content kids).symm.subset hC
  rw [h.children_caller.2, h.descendants_holder.2]
  rw [List.mem_append] at hmem
  refine hmem.imp (fun hmem => ?_) fun hmem => ?_
  · obtain ⟨hshows, hsubset⟩ := shows_content_all h.markup'.2.2 hmem
    exact ⟨hmem, fun hleft => h.nodup_content.2.2 (handles_subset hmem C.handle_mem)
      (map_handle_subset _ hleft), hsubset, hshows⟩
  · have hdisjoint := (List.nodup_append'.1 (nodup_fillAll h.nodup)).2.2
    exact ⟨hmem, List.mem_map_of_mem hmem, fun htrees => hdisjoint htrees
      (handles_subset hmem C.handle_mem), _, h.offer'.2.2.of_mem hmem⟩

/-- The part of the markup that is left, in the old order. -/
theorem order : (d'.descendants holder).filter (d.isWithin · holder) =
    (d.descendants holder).filter (d.stays (fillAll content kids).notes) := by
  obtain ⟨hkids, -, hdisjoint⟩ := List.nodup_append'.1 h.nodup
  rw [h.descendants_holder.1, h.descendants_holder.2]
  calc (allHandles (fillAll content kids).trees).filter (d.isWithin · holder)
      = (allHandles (fillAll content kids).trees).filter (· ∈ allHandles kids) := by
        refine List.filter_congr fun x _ => ?_
        rw [Bool.eq_iff_iff, decide_eq_true_iff, (h.isWithin_holder x).1]
    _ = (allHandles kids).filter (Keeps (slotsAll kids) (fillAll content kids).deliveries ·) :=
        filter_fillAll (List.Subset.refl _) (fun x hx hmem => hdisjoint hmem hx) hkids
    _ = (allHandles kids).filter (d.stays (fillAll content kids).notes) := by
        refine List.filter_congr fun x hx => ?_
        rw [Bool.eq_iff_iff, decide_eq_true_iff, stays_iff h.before h.markup.2.2 hx]

/-- No slot is left below the holder. -/
theorem slots_gone {s : Handle} (hs : s ∈ d.findElements holder Directive.slotTag) :
    d'.isWithin s holder = false := by
  rw [findElements, List.mem_filter, h.descendants_holder.1] at hs
  have hgone : s ∉ (d.descendants holder).filter (d.stays (fillAll content kids).notes) := by
    rw [List.mem_filter, stays, hs.2]
    simp
  rw [← h.order, List.mem_filter, (h.isWithin_holder s).1, and_iff_left hs.1,
    h.descendants_holder.2, ← (h.isWithin_holder s).2] at hgone
  exact Bool.eq_false_iff.2 hgone

/-- The children of what is left are what stands in the places of the old ones. -/
theorem stands {x : Handle} (hx : x = holder ∨
      d.isWithin x holder = true ∧ d.stays (fillAll content kids).notes x = true) :
    d'.children x = (d.children x).flatMap (d.standIn (fillAll content kids).notes) := by
  have hkids := (List.nodup_append'.1 h.nodup).1
  rcases hx with rfl | ⟨hwithin, hstays⟩
  · rw [h.children_holder.1, h.children_holder.2, h.markup.2.2.standIn_eq hkids,
      map_handle_fillAll hkids fun _ _ => rfl]
  · rw [(h.isWithin_holder x).1] at hwithin
    exact stands_of_fillAll h.markup.2.2 h.markup'.2.2 hkids (fun _ _ => rfl) hwithin
      ((stays_iff h.before h.markup.2.2 hwithin).1 hstays)

/-- The trees are the filled ones. -/
theorem filled : (d'.children holder).map d'.tree =
      Filled.toForest id (Slot.fillForest Slot.target? ((d.children caller).map d.tree)
        ((d.children holder).map d.tree)).1 ∧
    (d'.children caller).map d'.tree = (Slot.fillForest Slot.target?
        ((d.children caller).map d.tree) ((d.children holder).map d.tree)).2 := by
  obtain ⟨hkids, hcontent, -⟩ := List.nodup_append'.1 h.nodup
  obtain ⟨htrees, hleft, -⟩ := List.nodup_append'.1 (nodup_fillAll h.nodup)
  rw [h.children_holder.1, h.children_holder.2, h.children_caller.1, h.children_caller.2,
    h.markup.2.2.map_tree_eq hkids, h.markup'.2.2.map_tree_eq htrees,
    h.offer.2.2.map_tree_eq hcontent, h.offer'.2.2.map_tree_eq hleft]
  exact forest_fillAll content kids

end Views

end Outcome

/-- **Filling slots in place loses and doubles nothing.** -/
theorem projectSlots_projected (h : Apart d holder caller) :
    Projected d (d.projectSlots holder caller).1 holder caller
      (d.projectSlots holder caller).2 := by
  have hnoted : (d.projectSlots holder caller).2 = (d.deliveries holder caller).flatMap Prod.snd :=
    congrArg Prod.snd (projectSlots_eq d holder caller)
  obtain ⟨c, c', kids, content, ho, hprojected, hnotes⟩ := h.outcome
  generalize (d.projectSlots holder caller).1 = d' at ho
  generalize (d.projectSlots holder caller).2 = projected at hprojected hnoted
  have hchild : ∀ x, x ∈ d.children caller ↔ ∃ C ∈ content, C.handle = x := fun x => by
    rw [ho.children_caller.1, List.mem_map]
  refine ⟨ho.after, ⟨ho.exchange.size, ho.exchange.content⟩, fun x hxh hxc hholder hcaller => ?_,
    fun x hx => ?_, fun x hx => ?_, ?_, fun x => ?_, hnoted, fun s => ho.slots_gone, ?_,
    fun x hx => ?_, ho.filled⟩
  · refine ho.exchange.node_eq (fun hmem => ?_) hxh hxc
    rcases List.mem_append.1 hmem with hmem | hmem
    · exact Bool.false_ne_true (hholder.symm.trans ((ho.isWithin_holder x).1.2 hmem))
    · have hbelow := (ho.before.mem_iff_below ho.offer).1 hmem
      exact Bool.false_ne_true (hcaller.symm.trans (isWithin_iff_below.2 hbelow))
  · obtain ⟨C, hC, rfl⟩ := (hchild x).1 hx
    have hshows := ho.offer.2.2.of_mem hC
    have hnodup := ho.before.nodup_of_shows hshows
    obtain ⟨-, -, -, p, hshows'⟩ | ⟨-, -, -, p, hshows'⟩ := ho.placed hC <;>
      exact hshows.kept hshows' hnodup
  · obtain ⟨C, hC, rfl⟩ := (hchild x).1 hx
    refine (ho.placed hC).symm.imp (fun hleft => ⟨hleft.2.1, hleft.2.2.1⟩) fun hgone =>
      ⟨hgone.2.1, ?_⟩
    refine List.count_eq_one_of_mem ?_ (hgone.2.2.1 C.handle_mem)
    rw [ho.descendants_holder.2]
    exact (List.nodup_append'.1 (nodup_fillAll ho.nodup)).1
  · rw [hprojected]
    exact (map_handle_sublist _).nodup ho.nodup_content.1
  · rw [hprojected, hchild]
    constructor
    · rintro hx
      obtain ⟨C, hC, rfl⟩ := List.mem_map.1 hx
      have hcontent := (perm_fillAll content kids).subset (List.mem_append_left _ hC)
      refine ⟨⟨C, hcontent, rfl⟩, ?_⟩
      rw [ho.descendants_holder.2]
      exact (shows_content_all ho.markup'.2.2 hC).2 C.handle_mem
    · rintro ⟨⟨C, hC, rfl⟩, hx⟩
      obtain hgone | hleft := ho.placed hC
      · exact List.mem_map_of_mem hgone.1
      · exact absurd hx hleft.2.2.1
  · rw [hnotes]
    exact ho.order
  · rw [hnotes] at hx ⊢
    exact ho.stands hx

/-- Two sources that are read, with what has been checked of them. -/
theorem exists_parsed (page child : String) (check : Document → Forest → Bool)
    (h : ((parse page).toOption.any fun d => (Markup.parse child).toOption.any (check d)) = true) :
    ∃ d markup, parse page = .ok d ∧ Markup.parse child = .ok markup ∧ check d markup = true := by
  rcases hd : parse page with fault | d <;> rw [hd] at h
  · cases h
  rcases hmarkup : Markup.parse child with fault | markup <;> rw [hmarkup] at h
  · cases h
  exact ⟨d, markup, rfl, rfl, h⟩

/-- The hypothesis is satisfiable: one slot receives the heading, and the default content of another
one, which asks in vain, has a slot that receives the rest. -/
theorem projectSlots_projected_card : ∃ d markup,
    parse "<x-card><h2 slot=\"title\">Hi</h2>text</x-card>" = .ok d ∧
    Markup.parse "<slot name=\"title\"></slot><slot name=\"foot\">[<slot></slot>]</slot>" =
      .ok markup ∧
    Projected (d.hold markup).1 ((d.hold markup).1.projectSlots (d.hold markup).2 1).1
      (d.hold markup).2 1 [2, 4] := by
  obtain ⟨d, markup, hd, hmarkup, hcheck⟩ := exists_parsed
    "<x-card><h2 slot=\"title\">Hi</h2>text</x-card>"
    "<slot name=\"title\"></slot><slot name=\"foot\">[<slot></slot>]</slot>"
    (fun d markup => decide (1 < d.size ∧
      ((d.hold markup).1.projectSlots (d.hold markup).2 1).2 = [2, 4])) (by decide +kernel)
  obtain ⟨hcaller, hprojected⟩ := of_decide_eq_true hcheck
  have h := projectSlots_projected (apart_hold (wellFormed_of_parse hd) hcaller markup)
  rw [hprojected] at h
  exact ⟨d, markup, hd, hmarkup, h⟩

end Document
end Markup
end HtmlCompose
