/-
# What a named slot gets depends on the slots before it

Where no slot lies inside another one, filling slots is a division of the content between
the slots in their order (`Slot.distribute`, `fillAll_flat`): each takes what it asks for
of what those before it have left.

| the slots before the first slot named `x` | the first child that asks for `x` |
| --- | --- |
| are all named | stands where that slot stood |
| some have no name, or are named `children` | stands with all else where the first of these stood |

In the second case the named slot is replaced by its own content (`named_slot`), although a
child asks for it; `named_slot_missed` is such a document.
-/
import HtmlCompose.Proofs.Resolve.Conservation

namespace HtmlCompose

open Markup

namespace Slot

variable {α : Type} {target : α → Option String} {x : String} {a : α} {content : List α}

/-! ### Dividing content between slots -/

/-- Slots in their order, with what each receives, if it receives anything, and what is left. -/
def distribute (target : α → Option String) :
    List (Handle × Demand) → List α → List (Handle × List α) × List α
  | [], content => ([], content)
  | (s, demand) :: slots, content =>
    match take target demand content with
    | ([], _) => distribute target slots content
    | (taken, left) =>
      ((s, taken) :: (distribute target slots left).1, (distribute target slots left).2)

/-- A slot for which there is nothing is passed over. -/
theorem distribute_cons_of_nil {s : Handle} {demand : Demand} (slots : List (Handle × Demand))
    (htake : (take target demand content).1 = []) :
    distribute target ((s, demand) :: slots) content = distribute target slots content := by
  rw [distribute]
  split
  · rfl
  · next hne hr => exact absurd (by rw [hr] at htake; exact htake) hne

/-- A slot for which there is something takes it, and the others share what is left. -/
theorem distribute_cons_of_ne {s : Handle} {demand : Demand} (slots : List (Handle × Demand))
    (htake : (take target demand content).1 ≠ []) :
    distribute target ((s, demand) :: slots) content =
      ((s, (take target demand content).1) ::
        (distribute target slots (take target demand content).2).1,
      (distribute target slots (take target demand content).2).2) := by
  rw [distribute]
  split
  · next left hr =>
    rw [hr] at htake
    exact absurd rfl htake
  · next taken left hne hr => rw [hr]

/-- Slots in a row share the content one part after the other. -/
theorem distribute_append (slots slots' : List (Handle × Demand)) (content : List α) :
    distribute target (slots ++ slots') content =
      ((distribute target slots content).1 ++
        (distribute target slots' (distribute target slots content).2).1,
      (distribute target slots' (distribute target slots content).2).2) := by
  induction slots generalizing content with
  | nil => rfl
  | cons slot slots ih =>
    obtain ⟨s, demand⟩ := slot
    rw [List.cons_append]
    by_cases htake : (take target demand content).1 = []
    · rw [distribute_cons_of_nil _ htake, distribute_cons_of_nil _ htake, ih]
    · rw [distribute_cons_of_ne _ htake, distribute_cons_of_ne _ htake, ih, List.cons_append]

/-- From empty content nothing is taken. -/
theorem take_nil (demand : Demand) : take target demand ([] : List α) = ([], []) := by
  cases demand <;> rfl

/-- Slots receive nothing of nothing. -/
theorem distribute_nil (slots : List (Handle × Demand)) :
    distribute target slots ([] : List α) = ([], []) := by
  induction slots with
  | nil => rfl
  | cons slot slots ih =>
    obtain ⟨s, demand⟩ := slot
    rw [distribute_cons_of_nil _ (by rw [take_nil]), ih]

/-- Only slots receive something. -/
theorem map_fst_distribute (slots : List (Handle × Demand)) (content : List α) :
    ((distribute target slots content).1.map Prod.fst).Sublist (slots.map Prod.fst) := by
  induction slots generalizing content with
  | nil => exact .refl _
  | cons slot slots ih =>
    obtain ⟨s, demand⟩ := slot
    by_cases htake : (take target demand content).1 = []
    · rw [distribute_cons_of_nil _ htake]
      exact (ih content).cons s
    · rw [distribute_cons_of_ne _ htake]
      exact (ih _).cons_cons s

/-- Nothing is given to what is no slot. -/
theorem lookup_distribute_eq_none {slots : List (Handle × Demand)} {s : Handle}
    (hs : s ∉ slots.map Prod.fst) (content : List α) :
    (distribute target slots content).1.lookup s = none := by
  rw [List.lookup_eq_none_iff]
  intro note hnote
  rw [bne_iff_ne]
  rintro rfl
  exact hs ((map_fst_distribute slots content).subset (List.mem_map_of_mem hnote))

/-- The first child that asks for a slot is left by a slot of another name. -/
theorem find?_take_named {name : String} (hname : name ≠ x) (content : List α) :
    (take target (.named name) content).2.find? (fun a => target a == some x) =
      content.find? fun a => target a == some x := by
  obtain ⟨l₁, l₂, hcontent, hleft⟩ := take_split target (.named name) content
  have htaken : ∀ a ∈ (take target (.named name) content).1, ¬(target a == some x) = true := by
    intro a ha hx
    rw [take, Option.mem_toList] at ha
    have hasks := List.find?_some ha
    rw [beq_iff_eq] at hasks hx
    exact hname (Option.some.inj (hasks.symm.trans hx))
  generalize take target (.named name) content = r at hcontent hleft htaken
  rw [hcontent, hleft]
  simp only [List.find?_append, List.find?_eq_none.2 htaken, Option.or_none]

/-- Slots of other names leave the first child that asks for a slot. -/
theorem find?_distribute {slots : List (Handle × Demand)}
    (hslots : ∀ slot ∈ slots, slot.2 ≠ .everything ∧ slot.2 ≠ .named x) (content : List α) :
    (distribute target slots content).2.find? (fun a => target a == some x) =
      content.find? fun a => target a == some x := by
  induction slots generalizing content with
  | nil => rfl
  | cons slot slots ih =>
    obtain ⟨s, demand⟩ := slot
    obtain ⟨⟨hall, hx⟩, hrest⟩ := List.forall_mem_cons.1 hslots
    by_cases htake : (take target demand content).1 = []
    · rw [distribute_cons_of_nil _ htake, ih hrest]
    · rw [distribute_cons_of_ne _ htake, ih hrest]
      cases demand with
      | everything => exact absurd rfl hall
      | named name => exact find?_take_named (fun heq => hx (congrArg Demand.named heq)) content

variable {before : List (Handle × Demand)} {s : Handle}

/-- **A named slot receives the first child that asks for it if the slots before it have other
names.** -/
theorem lookup_distribute_named (behind : List (Handle × Demand))
    (hbefore : ∀ slot ∈ before, slot.2 ≠ .everything ∧ slot.2 ≠ .named x)
    (hs : s ∉ before.map Prod.fst) (ha : content.find? (fun a => target a == some x) = some a) :
    (distribute target (before ++ (s, .named x) :: behind) content).1.lookup s = some [a] := by
  have hleft : (distribute target before content).2.find? (fun a => target a == some x) = some a :=
    (find?_distribute hbefore content).trans ha
  have htake : (take target (.named x) (distribute target before content).2).1 = [a] := by
    rw [take, hleft, Option.toList_some]
  rw [distribute_append, List.lookup_append, lookup_distribute_eq_none hs, Option.none_or,
    distribute_cons_of_ne _ (by rw [htake]; exact List.cons_ne_nil a []), htake, List.lookup_cons,
    BEq.rfl]

/-- **A slot that takes everything receives that child if it comes before**, and no slot after it
receives anything. -/
theorem lookup_distribute_everything {e : Handle} (behind : List (Handle × Demand))
    (hbefore : ∀ slot ∈ before, slot.2 ≠ .everything ∧ slot.2 ≠ .named x)
    (he : e ∉ before.map Prod.fst) (hs : s ∉ before.map Prod.fst) (hne : s ≠ e)
    (ha : content.find? (fun a => target a == some x) = some a) :
    (∃ taken, a ∈ taken ∧
      (distribute target (before ++ (e, .everything) :: behind) content).1.lookup e = some taken) ∧
    (distribute target (before ++ (e, .everything) :: behind) content).1.lookup s = none := by
  have hleft : (distribute target before content).2.find? (fun a => target a == some x) = some a :=
    (find?_distribute hbefore content).trans ha
  have hmem : a ∈ (distribute target before content).2 := List.mem_of_find?_eq_some hleft
  have htake : (take target .everything (distribute target before content).2).1 ≠ [] :=
    List.ne_nil_of_mem hmem
  rw [distribute_append, List.lookup_append, List.lookup_append, lookup_distribute_eq_none he,
    lookup_distribute_eq_none hs, Option.none_or, Option.none_or, distribute_cons_of_ne _ htake]
  refine ⟨⟨_, hmem, by rw [List.lookup_cons, BEq.rfl]; rfl⟩, ?_⟩
  rw [List.lookup_cons, beq_false_of_ne hne]
  show (distribute target behind []).1.lookup s = none
  rw [distribute_nil]
  rfl

end Slot

namespace Markup
namespace Placed

/-! ### Slots side by side -/

mutual
/-- The slots of a tree with what they take. -/
def demands : Placed → List (Handle × Slot.Demand)
  | .node h c kids =>
    match Slot.demand? c with
    | some demand => (h, demand) :: demandsAll kids
    | none => demandsAll kids

/-- The slots of trees in a row with what they take. -/
def demandsAll : List Placed → List (Handle × Slot.Demand)
  | [] => []
  | P :: Ps => P.demands ++ demandsAll Ps
end

mutual
/-- The demands of a tree are those of its slots, in their order. -/
theorem map_fst_demands (P : Placed) : P.demands.map Prod.fst = P.slots := by
  obtain ⟨h, c, kids⟩ := P
  rw [demands, slots]
  rcases Slot.demand? c with _ | demand
  · exact map_fst_demandsAll kids
  · exact congrArg (h :: ·) (map_fst_demandsAll kids)

/-- The demands of trees in a row are those of their slots, in their order. -/
theorem map_fst_demandsAll (Ps : List Placed) : (demandsAll Ps).map Prod.fst = slotsAll Ps := by
  match Ps with
  | [] => rfl
  | P :: Ps =>
    rw [demandsAll, List.map_append, map_fst_demands P, map_fst_demandsAll Ps, slotsAll]
end

mutual
/-- No slot of the tree lies inside another one. -/
def Flat : Placed → Prop
  | .node _ c kids => FlatAll kids ∧ ((Slot.demand? c).isSome → slotsAll kids = [])

/-- No slot of the trees lies inside another one. -/
def FlatAll : List Placed → Prop
  | [] => True
  | P :: Ps => P.Flat ∧ FlatAll Ps
end

/-- The deliveries of a filling, by the handles of the slots. -/
def Filling.given (f : Filling) : List (Handle × List Placed) :=
  f.deliveries.map fun D => (D.slot.handle, D.content)

/-- What is noted of a slot are the nodes of what it was given. -/
theorem Filling.lookup_notes (f : Filling) (s : Handle) :
    f.notes.lookup s = (f.given.lookup s).map (·.map handle) := by
  rw [notes, given]
  induction f.deliveries with
  | nil => rfl
  | cons D deliveries ih =>
    rw [List.map_cons, List.map_cons, List.lookup_cons, List.lookup_cons, ih]
    split <;> rfl

mutual
/-- Filling a tree whose slots stand side by side hands the content out slot by slot. -/
theorem fill_flat (content : List Placed) {P : Placed} (hP : P.Flat) :
    (P.fill content).given = (Slot.distribute target? P.demands content).1 ∧
      (P.fill content).left = (Slot.distribute target? P.demands content).2 := by
  obtain ⟨h, c, kids⟩ := P
  obtain ⟨hkids, hslots⟩ := hP
  rcases hc : Slot.demand? c with _ | demand
  · rw [fill_own hc, demands, hc]
    exact fillAll_flat content hkids
  · have hnone : demandsAll kids = [] := by
      rw [← List.map_eq_nil_iff, map_fst_demandsAll]
      exact hslots (hc ▸ rfl)
    rw [demands, hc, hnone]
    by_cases htake : (Slot.take target? demand content).1 = []
    · have hall := fillAll_flat content hkids
      rw [hnone] at hall
      rw [fill_default hc htake]
      simp only [Slot.distribute_cons_of_nil [] htake]
      exact hall
    · rw [fill_received hc htake]
      simp only [Slot.distribute_cons_of_ne [] htake]
      exact ⟨rfl, rfl⟩

/-- **Where no slot lies inside another one, the content is divided between the slots.** -/
theorem fillAll_flat (content : List Placed) {Ps : List Placed} (hPs : FlatAll Ps) :
    (fillAll content Ps).given = (Slot.distribute target? (demandsAll Ps) content).1 ∧
      (fillAll content Ps).left = (Slot.distribute target? (demandsAll Ps) content).2 := by
  match Ps with
  | [] => exact ⟨rfl, rfl⟩
  | P :: Ps =>
    obtain ⟨hgiven, hleft⟩ := fill_flat content hPs.1
    obtain ⟨hgiven', hleft'⟩ := fillAll_flat (P.fill content).left hPs.2
    rw [hleft] at hgiven' hleft'
    rw [demandsAll, Slot.distribute_append, fillAll, Filling.given, List.map_append]
    exact ⟨congrArg₂ (· ++ ·) hgiven (hleft ▸ hgiven'), hleft ▸ hleft'⟩
end

end Placed

namespace Document

open Placed

variable {d d' : Document} {holder caller s c : Handle} {x : String}
  {notes : List (Handle × List Handle)}

mutual
/-- Shown trees are flat if none of their slots is below another one. -/
theorem Shows.flat {d : Document} {parent : Option Handle} {P : Placed} (hP : d.Shows parent P)
    (hflat : ∀ s ∈ P.slots, ∀ t ∈ P.slots, ¬d.Below s t) : P.Flat := by
  obtain ⟨h, c, kids⟩ := P
  have hsubset := slotsAll_subset_slots h c kids
  refine ⟨ShowsAll.flat hP.2.2 fun s hs t ht => hflat s (hsubset hs) t (hsubset ht), fun hc => ?_⟩
  refine List.eq_nil_iff_forall_not_mem.2 fun s hs => hflat s (hsubset hs) h ?_ ?_
  · rw [slots, hc]
    exact List.mem_cons_self
  · exact hP.2.2.below ((slotsAll_sublist kids).subset hs)

/-- Trees in which no slot lies below another are flat. -/
theorem ShowsAll.flat {d : Document} {parent : Option Handle} {Ps : List Placed}
    (hPs : d.ShowsAll parent Ps) (hflat : ∀ s ∈ slotsAll Ps, ∀ t ∈ slotsAll Ps, ¬d.Below s t) :
    FlatAll Ps := by
  match Ps with
  | [] => trivial
  | P :: Ps =>
    refine ⟨Shows.flat hPs.1 fun s hs t ht => ?_, ShowsAll.flat hPs.2 fun s hs t ht => ?_⟩
    · exact hflat s (List.mem_append_left _ hs) t (List.mem_append_left _ ht)
    · exact hflat s (List.mem_append_right _ hs) t (List.mem_append_right _ ht)
end

/-! ### The first slot of a name -/

/-- The name of a slot. -/
def slotName? (d : Document) (s : Handle) : Option String := (d.element? s).bind (·.attr? "name")

/-- A slot takes everything that is left: it has no name, or is named `children`. -/
def takesAll (d : Document) (s : Handle) : Bool :=
  (d.slotName? s).all (· == "children")

/-- The slots below a holder that come before one of them. -/
def slotsBefore (d : Document) (holder s : Handle) : List Handle :=
  (d.findElements holder Directive.slotTag).takeWhile (· != s)

/-- Nodes stand where a slot stood: the children of its parent are what stands in the places of the
old ones, and these nodes in the place of the slot. -/
def StandsFor (d d' : Document) (notes : List (Handle × List Handle)) (s : Handle)
    (content : List Handle) : Prop :=
  ∃ p, d.parent? s = some p ∧ d'.children p =
    (d.children p).flatMap fun y => if y = s then content else d.standIn notes y

/-- What a slot takes follows from its name. -/
theorem demand_iff {demand : Slot.Demand} (hs : Slot.demand? (d.content s) = some demand) :
    (demand = .everything ↔ d.takesAll s = true) ∧
      (x ≠ "children" → (demand = .named x ↔ (d.slotName? s == some x) = true)) := by
  rw [Slot.demand?, Option.bind_eq_some_iff] at hs
  obtain ⟨e, he, hdemand⟩ := hs
  have hname : d.slotName? s = e.attr? "name" := by rw [slotName?, element?, he, Option.bind_some]
  rw [takesAll, hname]
  split at hdemand
  · rcases hattr : e.attr? "name" with _ | name <;> rw [hattr] at hdemand <;>
      obtain rfl := Option.some.inj hdemand
    · simp
    · by_cases hchildren : name = "children"
      · simp only [hchildren, if_true, Option.all_some, BEq.rfl, true_and]
        intro hx
        simp [Ne.symm hx]
      · simp [hchildren]
  · cases hdemand

mutual
/-- The demand listed for a slot of a tree is the one its node makes. -/
theorem Shows.mem_demands {d : Document} {parent : Option Handle} {P : Placed} {s : Handle}
    {demand : Slot.Demand} (hP : d.Shows parent P) (hs : (s, demand) ∈ P.demands) :
    Slot.demand? (d.content s) = some demand := by
  obtain ⟨h, c, kids⟩ := P
  have hcontent : d.content h = c := congrArg Node.content hP.2.1
  rw [demands] at hs
  rcases hc : Slot.demand? c with _ | demand' <;> rw [hc] at hs
  · exact ShowsAll.mem_demands hP.2.2 hs
  · rcases List.mem_cons.1 hs with heq | hs
    · obtain ⟨rfl, rfl⟩ := Prod.mk.inj heq
      rw [hcontent, hc]
    · exact ShowsAll.mem_demands hP.2.2 hs

/-- The demand listed for a slot of a row is the one its node makes. -/
theorem ShowsAll.mem_demands {d : Document} {parent : Option Handle} {Ps : List Placed} {s : Handle}
    {demand : Slot.Demand} (hPs : d.ShowsAll parent Ps) (hs : (s, demand) ∈ demandsAll Ps) :
    Slot.demand? (d.content s) = some demand := by
  match Ps with
  | [] => exact absurd hs List.not_mem_nil
  | P :: Ps =>
    exact (List.mem_append.1 hs).elim (Shows.mem_demands hPs.1) (ShowsAll.mem_demands hPs.2)
end

/-- No slot below the holder lies inside another one. -/
def SideBySide (d : Document) (holder : Handle) : Prop :=
  ∀ s ∈ d.findElements holder Directive.slotTag, ∀ t ∈ d.findElements holder Directive.slotTag,
    d.isWithin s t = false

section SideBySide

variable (h : Apart d holder caller) (hflat : d.SideBySide holder)
  (hs : s ∈ d.findElements holder Directive.slotTag)
include h hflat hs

/-- What stands in the place of a slot: what it has received, or its own children. -/
theorem standIn_slot (notes : List (Handle × List Handle)) :
    d.standIn notes s = (notes.lookup s).getD (d.children s) := by
  have hslot := List.mem_filter.1 hs
  have hwithin := (h.wellFormed.mem_descendants_iff h.holder_lt).1 hslot.1
  have hlt : s < d.size := by
    obtain hp | ⟨hp, -⟩ := isWithin_iff_below.1 hwithin <;> exact lt_of_parent hp
  have hkids : (d.children s).flatMap (d.standIn notes) =
      (d.children s).flatMap List.singleton := by
    refine List.flatMap_congr fun k hk => ?_
    have hparent := (h.wellFormed.linked s k).1 hk
    have hplain : d.isElement Directive.slotTag k = false := by
      refine Bool.eq_false_iff.2 fun hk' => ?_
      have hbelow : d.isWithin k holder = true :=
        isWithin_iff_below.2 (.up hparent (isWithin_iff_below.1 hwithin))
      refine Bool.eq_false_iff.1 (hflat k ?_ s hs) (isWithin_iff_below.2 (.child hparent))
      exact List.mem_filter.2 ⟨(h.wellFormed.mem_descendants_iff h.holder_lt).2 hbelow, hk'⟩
    rw [h.wellFormed.standIn_eq (lt_of_parent hparent), hplain]
    rfl
  rw [h.wellFormed.standIn_eq hlt, if_pos hslot.2]
  rcases notes.lookup s with _ | content
  · rw [hkids]
    exact List.flatMap_singleton' _
  · rfl

/-- What stands in the place of a slot stands among what stands in the places of its neighbours. -/
theorem standsFor : StandsFor d (d.projectSlots holder caller).1 (d.deliveries holder caller) s
    (((d.deliveries holder caller).lookup s).getD (d.children s)) := by
  have hprojected := projectSlots_projected h
  obtain ⟨c, c', kids, content, ho, -, hnotes⟩ := h.outcome
  have hwithin := (h.wellFormed.mem_descendants_iff h.holder_lt).1 (List.mem_filter.1 hs).1
  have hfind : d.findElements holder Directive.slotTag = slotsAll kids := by
    rw [findElements, ho.descendants_holder.1, ho.markup.2.2.filter_slots]
  -- no slot is above the parent, which therefore stays
  have hnone : ∀ t, d.Below s t → t ∉ d.findElements holder Directive.slotTag := fun t hbelow ht =>
    Bool.eq_false_iff.1 (hflat s hs t ht) (isWithin_iff_below.2 hbelow)
  have hstay : ∀ p, d.parent? s = some p → d.isWithin p holder = true →
      d.stays (d.deliveries holder caller) p = true := fun p hp hpholder => by
    rw [stays, Bool.and_eq_true, List.all_eq_true]
    refine ⟨?_, fun note hnote => ?_⟩
    · rw [Bool.not_eq_true', ← Bool.not_eq_true]
      intro hslot
      refine hnone p (.child hp) (List.mem_filter.2 ⟨?_, hslot⟩)
      exact (h.wellFormed.mem_descendants_iff h.holder_lt).2 hpholder
    · rw [Bool.not_eq_true', ← Bool.not_eq_true, isWithin_iff_below]
      intro hbelow
      rw [hnotes] at hnote
      obtain ⟨D, hD, rfl⟩ := List.mem_map.1 hnote
      exact hnone _ (.up hp hbelow) (hfind ▸ (of_mem_fillAll hD).slot)
  obtain ⟨p, hp, hcase⟩ :
      ∃ p, d.parent? s = some p ∧ (p = holder ∨ d.isWithin p holder = true) := by
    obtain hp | ⟨hp, hbelow⟩ := isWithin_iff_below.1 hwithin
    · exact ⟨holder, hp, .inl rfl⟩
    · exact ⟨_, hp, .inr (isWithin_iff_below.2 hbelow)⟩
  refine ⟨p, hp, ?_⟩
  rw [hprojected.stands p (hcase.imp_right fun hpholder => ⟨hpholder, hstay p hp hpholder⟩)]
  refine List.flatMap_congr fun y _ => ?_
  split
  · next heq => rw [heq, standIn_slot h hflat hs]
  · rfl

end SideBySide

/-- The slots below the holder with what they take, and the content that they divide. -/
structure Division (d : Document) (holder caller : Handle)
    (demands : List (Handle × Slot.Demand)) (content : List Placed) : Prop where
  slots : demands.map Prod.fst = d.findElements holder Directive.slotTag
  nodup : (demands.map Prod.fst).Nodup
  demand : ∀ slot ∈ demands, Slot.demand? (d.content slot.1) = some slot.2
  children : d.children caller = content.map handle
  shows : d.ShowsAll (some caller) content
  lookup : ∀ s, (d.deliveries holder caller).lookup s =
    ((Slot.distribute target? demands content).1.lookup s).map (·.map handle)

/-- A projection over slots that stand side by side divides the content among them. -/
theorem Apart.division (h : Apart d holder caller) (hflat : d.SideBySide holder) :
    ∃ demands content, Division d holder caller demands content := by
  obtain ⟨c, c', kids, content, ho, -, hnotes⟩ := h.outcome
  have hfind : d.findElements holder Directive.slotTag = slotsAll kids := by
    rw [findElements, ho.descendants_holder.1, ho.markup.2.2.filter_slots]
  have hkids : FlatAll kids := ho.markup.2.2.flat fun s hs t ht hbelow =>
    Bool.eq_false_iff.1 (hflat s (hfind ▸ hs) t (hfind ▸ ht)) (isWithin_iff_below.2 hbelow)
  refine ⟨demandsAll kids, content, ?_, ?_, fun slot hslot => ho.markup.2.2.mem_demands hslot,
    ho.children_caller.1, ho.offer.2.2, fun s => ?_⟩
  · rw [map_fst_demandsAll, hfind]
  · rw [map_fst_demandsAll]
    exact (slotsAll_sublist kids).nodup (List.nodup_append'.1 ho.nodup).1
  · rw [hnotes, ← (fillAll_flat content hkids).1, Filling.lookup_notes]

namespace Division

variable {demands before : List (Handle × Slot.Demand)} {content : List Placed}

/-- The first slot of a name, among the others. -/
theorem split_named (h : Division d holder caller demands content) (hx : x ≠ "children")
    (hs : (d.findElements holder Directive.slotTag).find? (d.slotName? · == some x) = some s) :
    ∃ before behind, demands = before ++ (s, .named x) :: behind ∧
      d.slotsBefore holder s = before.map Prod.fst ∧ s ∉ before.map Prod.fst ∧
      ∀ slot ∈ before, slot.2 ≠ .named x := by
  obtain ⟨hname, pre, post, hsplit, hpre⟩ := List.find?_eq_some_iff_append.1 hs
  obtain ⟨before, rest, rfl, rfl, hrest⟩ := List.map_eq_append_iff.1 (h.slots.trans hsplit)
  obtain ⟨⟨s', demand⟩, behind, rfl, hs', -⟩ := List.map_eq_cons_iff.1 hrest
  obtain rfl : s' = s := hs'
  obtain rfl : demand = .named x :=
    ((demand_iff (h.demand (s', demand) (by simp))).2 hx).2 hname
  have hnodup := h.nodup
  rw [List.map_append, List.map_cons, List.nodup_append'] at hnodup
  have hout : s' ∉ before.map Prod.fst := fun hmem => hnodup.2.2 hmem List.mem_cons_self
  refine ⟨before, behind, rfl, ?_, hout, fun slot hslot heq => ?_⟩
  · rw [slotsBefore, hsplit, List.takeWhile_append_of_pos, List.takeWhile_cons_of_neg,
      List.append_nil]
    · simp
    · exact fun t ht => bne_iff_ne.2 fun heq => hout (heq ▸ ht)
  · have hnone := hpre slot.1 (List.mem_map_of_mem hslot)
    rw [((demand_iff (h.demand slot (List.mem_append_left _ hslot))).2 hx).1 heq] at hnone
    cases hnone

/-- The first slot that takes everything, among those before a slot. -/
theorem split_everything {e : Handle} {rest : List (Handle × Slot.Demand)}
    (h : Division d holder caller (before ++ rest) content)
    (he : (before.map Prod.fst).find? d.takesAll = some e) :
    ∃ first between, before = first ++ (e, .everything) :: between ∧ e ∉ first.map Prod.fst ∧
      ∀ slot ∈ first, slot.2 ≠ .everything := by
  obtain ⟨htakes, pre, post, hsplit, hpre⟩ := List.find?_eq_some_iff_append.1 he
  obtain ⟨first, others, rfl, rfl, hothers⟩ := List.map_eq_append_iff.1 hsplit
  obtain ⟨⟨e', demand⟩, between, rfl, he', -⟩ := List.map_eq_cons_iff.1 hothers
  obtain rfl : e' = e := he'
  obtain rfl : demand = .everything :=
    (demand_iff (x := "") (h.demand (e', demand) (by simp))).1.2 htakes
  have hnodup := h.nodup
  simp only [List.map_append, List.map_cons, List.append_assoc, List.cons_append] at hnodup
  refine ⟨first, between, rfl, fun hmem => ?_, fun slot hslot heq => ?_⟩
  · exact (List.nodup_append'.1 hnodup).2.2 hmem List.mem_cons_self
  · have hnone := hpre slot.1 (List.mem_map_of_mem hslot)
    rw [(demand_iff (x := "") (h.demand slot (by simp [hslot]))).1.1 heq] at hnone
    cases hnone

end Division

/-- **Where slots are side by side, a named one gets its content if those before it are named.**  If
one of those takes everything, it gets that content, and the named slot is replaced by its own. -/
theorem named_slot (h : Apart d holder caller) (hflat : d.SideBySide holder) (hx : x ≠ "children")
    (hs : (d.findElements holder Directive.slotTag).find? (d.slotName? · == some x) = some s)
    (hc : (d.children caller).find? (d.slotTarget? · == some x) = some c) :
    ((∀ e ∈ d.slotsBefore holder s, d.takesAll e = false) →
      StandsFor d (d.projectSlots holder caller).1 (d.deliveries holder caller) s [c]) ∧
    ∀ e, (d.slotsBefore holder s).find? d.takesAll = some e →
      (∃ content, c ∈ content ∧
        StandsFor d (d.projectSlots holder caller).1 (d.deliveries holder caller) e content) ∧
      StandsFor d (d.projectSlots holder caller).1 (d.deliveries holder caller) s
        (d.children s) := by
  obtain ⟨demands, content, hdiv⟩ := h.division hflat
  obtain ⟨before, behind, rfl, hbefore, hout, hother⟩ := hdiv.split_named hx hs
  obtain ⟨C, hC, rfl⟩ :
      ∃ C, content.find? (fun P => P.target? == some x) = some C ∧ C.handle = c := by
    rw [hdiv.children, hdiv.shows.find?_target, Option.map_eq_some_iff] at hc
    exact hc
  have hstands := standsFor h hflat (List.mem_of_find?_eq_some hs)
  rw [hdiv.lookup] at hstands
  rw [hbefore]
  refine ⟨fun hnamed => ?_, fun e he => ?_⟩
  · have hall : ∀ slot ∈ before, slot.2 ≠ .everything ∧ slot.2 ≠ .named x := fun slot hslot => by
      refine ⟨fun heq => ?_, hother slot hslot⟩
      have htakes := (demand_iff (x := x) (hdiv.demand slot (List.mem_append_left _ hslot))).1.1 heq
      exact Bool.false_ne_true ((hnamed _ (List.mem_map_of_mem hslot)).symm.trans htakes)
    rwa [Slot.lookup_distribute_named behind hall hout hC] at hstands
  · obtain ⟨first, between, rfl, hfirst, hnamed⟩ := hdiv.split_everything he
    simp only [List.map_append, List.map_cons, List.mem_append, List.mem_cons, not_or] at hout
    obtain ⟨⟨taken, htaken, hgiven⟩, hnone⟩ := Slot.lookup_distribute_everything
      (between ++ (s, .named x) :: behind)
      (fun slot hslot => ⟨hnamed slot hslot, hother slot (List.mem_append_left _ hslot)⟩)
      hfirst hout.1 hout.2.1 hC
    rw [List.append_assoc, List.cons_append] at hdiv hstands
    have hstands_e := standsFor h hflat (s := e) (hdiv.slots ▸ by simp)
    rw [hdiv.lookup, hgiven] at hstands_e
    rw [hnone] at hstands
    exact ⟨⟨_, List.mem_map_of_mem htaken, hstands_e⟩, hstands⟩

instance (d : Document) (holder : Handle) : Decidable (d.SideBySide holder) :=
  inferInstanceAs (Decidable (∀ s ∈ d.findElements holder Directive.slotTag,
    ∀ t ∈ d.findElements holder Directive.slotTag, d.isWithin s t = false))

/-- The hypotheses are satisfiable: the slot for the title comes before the one for the rest. -/
theorem named_slot_card : ∃ d markup,
    parse "<x-card>text<h2 slot=\"title\">Hi</h2></x-card>" = .ok d ∧
    Markup.parse "<p><slot name=\"title\"></slot></p><slot></slot>" = .ok markup ∧
    StandsFor (d.hold markup).1 ((d.hold markup).1.projectSlots (d.hold markup).2 1).1
      ((d.hold markup).1.deliveries (d.hold markup).2 1) 7 [3] := by
  obtain ⟨d, markup, hd, hmarkup, hcheck⟩ := exists_parsed
    "<x-card>text<h2 slot=\"title\">Hi</h2></x-card>"
    "<p><slot name=\"title\"></slot></p><slot></slot>"
    (fun d markup => decide (1 < d.size ∧ (d.hold markup).1.SideBySide (d.hold markup).2 ∧
      ((d.hold markup).1.findElements (d.hold markup).2 Directive.slotTag).find?
        ((d.hold markup).1.slotName? · == some "title") = some 7 ∧
      ((d.hold markup).1.children 1).find? ((d.hold markup).1.slotTarget? · == some "title") =
        some 3 ∧
      (d.hold markup).1.slotsBefore (d.hold markup).2 7 = [])) (by decide +kernel)
  obtain ⟨hcaller, hflat, hs, hc, hbefore⟩ := of_decide_eq_true hcheck
  have h := named_slot (apart_hold (wellFormed_of_parse hd) hcaller markup) hflat (by decide) hs hc
  exact ⟨d, markup, hd, hmarkup, h.1 fun e he => absurd (hbefore ▸ he) List.not_mem_nil⟩

/-- A child asks for the slot, and no slot lies inside another one, but a slot without a name comes
first: the named slot is replaced by its own content. -/
theorem named_slot_missed : ∃ d markup, parse "<x-c><b slot=\"t\">T</b></x-c>" = .ok d ∧
    Markup.parse "<slot>rest</slot>|<slot name=\"t\">none</slot>" = .ok markup ∧
    Apart (d.hold markup).1 (d.hold markup).2 1 ∧ (d.hold markup).1.SideBySide (d.hold markup).2 ∧
    ((d.hold markup).1.findElements (d.hold markup).2 Directive.slotTag).find?
      ((d.hold markup).1.slotName? · == some "t") = some 8 ∧
    ((d.hold markup).1.children 1).find? ((d.hold markup).1.slotTarget? · == some "t") = some 2 ∧
    ¬StandsFor (d.hold markup).1 ((d.hold markup).1.projectSlots (d.hold markup).2 1).1
      ((d.hold markup).1.deliveries (d.hold markup).2 1) 8 [2] := by
  obtain ⟨d, markup, hd, hmarkup, hcheck⟩ := exists_parsed
    "<x-c><b slot=\"t\">T</b></x-c>"
    "<slot>rest</slot>|<slot name=\"t\">none</slot>"
    (fun d markup => decide (1 < d.size ∧ (d.hold markup).1.SideBySide (d.hold markup).2 ∧
      ((d.hold markup).1.findElements (d.hold markup).2 Directive.slotTag).find?
        ((d.hold markup).1.slotName? · == some "t") = some 8 ∧
      ((d.hold markup).1.children 1).find? ((d.hold markup).1.slotTarget? · == some "t") = some 2 ∧
      (d.hold markup).1.parent? 8 = some 4 ∧
      ((d.hold markup).1.projectSlots (d.hold markup).2 1).1.children 4 ≠
        ((d.hold markup).1.children 4).flatMap fun y => if y = 8 then [2] else
          (d.hold markup).1.standIn ((d.hold markup).1.deliveries (d.hold markup).2 1) y))
    (by decide +kernel)
  obtain ⟨hcaller, hflat, hs, hc, hparent, hchildren⟩ := of_decide_eq_true hcheck
  refine ⟨d, markup, hd, hmarkup, apart_hold (wellFormed_of_parse hd) hcaller markup, hflat, hs, hc,
    ?_⟩
  rintro ⟨p, hp, hstands⟩
  obtain rfl := Option.some.inj (hparent.symm.trans hp)
  exact hchildren hstands

end Document
end Markup
end HtmlCompose
