/-
# Trees put below the first element of a name

On trees the first element of a name is looked for and changed on the way (`modifyFirst?`).  In a
document it is found by a walk over handles, and one node is edited.  Both find the same one,
because the walk and the trees go through the same contents in the same order
(`ShowsAll.map_content`).

So where an edit has put new trees before or behind the children of the element that the walk has
found, the document shows the changed trees, and every handle there before is there still, with
those of the new trees (`ShowsAll.graft`).
-/
import HtmlCompose.Proofs.Head.Merging
import HtmlCompose.Proofs.Markup.Walks

namespace HtmlCompose
namespace Markup
namespace Document

open Placed

variable {d d' : Document} {name : String} {h : Handle} {As Bs : List Placed}

/-! ### Walks and trees -/

/-- A walk finds an element of a name exactly if the trees have one. -/
theorem ShowsAll.isSome_find? {parent : Option Handle} {Ps : List Placed}
    (hPs : d.ShowsAll parent Ps) (name : String) :
    (Head.childrenOf? (Placed.forest Ps) name).isSome =
      ((allHandles Ps).find? (d.isElement name)).isSome := by
  have hany := congrArg (List.any · fun c => c.element?.any (·.is name)) hPs.map_content
  rw [List.any_map, List.any_map] at hany
  rw [Head.childrenOf?, Option.isSome_map, Forest.find?, List.isSome_find?, List.isSome_find?]
  exact hany

/-- A walk finds an element of a name in one tree exactly if the tree has one. -/
theorem Shows.isSome_find? {parent : Option Handle} {P : Placed} (hP : d.Shows parent P)
    (name : String) :
    (Head.childrenOf? [P.tree] name).isSome = (P.handles.find? (d.isElement name)).isSome := by
  have hPs : d.ShowsAll parent [P] := ⟨hP, trivial⟩
  have hsome := hPs.isSome_find? name
  rwa [allHandles_singleton] at hsome

/-! ### Grafting -/

mutual
/-- One tree is shown with the new ones below the first element of a name in it. -/
theorem Shows.graft {d d' : Document} {name : String} {h : Handle} {As Bs : List Placed}
    {parent : Option Handle} {P : Placed} (hP : d.Shows parent P) (hnodup : P.handles.Nodup)
    (hfirst : P.handles.find? (d.isElement name) = some h) (hsize : d.size ≤ d'.size)
    (hnode : d'.node h =
      { d.node h with children := As.map handle ++ (d.node h).children ++ Bs.map handle })
    (hAs : d'.ShowsAll (some h) As) (hBs : d'.ShowsAll (some h) Bs)
    (hrest : ∀ x ∈ P.handles, x ≠ h → d'.node x = d.node x) :
    ∃ P' : Placed, P'.handle = P.handle ∧ d'.Shows parent P' ∧
      Head.modifyTree? name (fun kids => Placed.forest As ++ kids ++ Placed.forest Bs) P.tree =
        some P'.tree ∧
      P'.handles.Perm (allHandles As ++ allHandles Bs ++ P.handles) := by
  obtain ⟨y, c, kids⟩ := P
  have hc : d.content y = c := congrArg Node.content hP.2.1
  rw [handles, List.nodup_cons] at hnodup
  rw [Placed.tree, Head.modifyTree?]
  by_cases hy : c.element?.any (·.is name) = true
  · have hyh : y = h := by
      rw [handles, List.find?_cons_of_pos (by rw [isElement, element?, hc, hy])] at hfirst
      exact Option.some.inj hfirst
    subst hyh
    have hkids : d'.ShowsAll (some y) kids := hP.2.2.frame hsize fun x hx =>
      hrest x (List.mem_cons_of_mem y hx) fun heq => hnodup.1 (heq ▸ hx)
    refine ⟨.node y c (As ++ kids ++ Bs), rfl, ⟨hP.1.trans_le hsize, ?_, ?_⟩, ?_, ?_⟩
    · rw [hnode, hP.2.1, List.map_append, List.map_append]
    · exact (showsAll_append ..).2 ⟨(showsAll_append ..).2 ⟨hAs, hkids⟩, hBs⟩
    · rw [if_pos hy, Placed.tree, forest_append, forest_append]
    · rw [handles, handles, allHandles_append, allHandles_append]
      refine List.Perm.trans ?_ List.perm_middle.symm
      rw [List.append_assoc, List.append_assoc]
      exact ((List.perm_append_comm).append_left _).cons y
  · rw [handles, List.find?_cons_of_neg (by rw [isElement, element?, hc]; exact hy)] at hfirst
    have hmem : h ∈ allHandles kids := List.mem_of_find?_eq_some hfirst
    obtain ⟨kids', hhandles, hshows, hmod, hperm⟩ := ShowsAll.graft hP.2.2 hnodup.2 hfirst hsize
      hnode hAs hBs fun x hx => hrest x (List.mem_cons_of_mem y hx)
    refine ⟨.node y c kids', rfl, ⟨hP.1.trans_le hsize, ?_, hshows⟩, ?_, ?_⟩
    · rw [hhandles, ← hP.2.1]
      exact hrest y List.mem_cons_self fun heq => hnodup.1 (heq ▸ hmem)
    · rw [if_neg hy, hmod]
      rfl
    · rw [handles, handles]
      exact (hperm.cons y).trans List.perm_middle.symm

/-- **The document shows the trees with the new ones below the first element of a name.** -/
theorem ShowsAll.graft {d d' : Document} {name : String} {h : Handle} {As Bs : List Placed}
    {parent : Option Handle} {Ps : List Placed} (hPs : d.ShowsAll parent Ps)
    (hnodup : (allHandles Ps).Nodup)
    (hfirst : (allHandles Ps).find? (d.isElement name) = some h) (hsize : d.size ≤ d'.size)
    (hnode : d'.node h =
      { d.node h with children := As.map handle ++ (d.node h).children ++ Bs.map handle })
    (hAs : d'.ShowsAll (some h) As) (hBs : d'.ShowsAll (some h) Bs)
    (hrest : ∀ x ∈ allHandles Ps, x ≠ h → d'.node x = d.node x) :
    ∃ Ps' : List Placed, Ps'.map handle = Ps.map handle ∧ d'.ShowsAll parent Ps' ∧
      Head.modifyFirst? name (fun kids => Placed.forest As ++ kids ++ Placed.forest Bs)
        (Placed.forest Ps) = some (Placed.forest Ps') ∧
      (allHandles Ps').Perm (allHandles As ++ allHandles Bs ++ allHandles Ps) := by
  match Ps with
  | [] => cases hfirst
  | P :: Ps =>
    rw [allHandles, List.nodup_append'] at hnodup
    obtain ⟨hnodupP, hnodupPs, hdisjoint⟩ := hnodup
    rw [allHandles, List.find?_append] at hfirst
    have hrestP : ∀ x ∈ P.handles, x ≠ h → d'.node x = d.node x := fun x hx =>
      hrest x (List.mem_append_left _ hx)
    have hrestPs : ∀ x ∈ allHandles Ps, x ≠ h → d'.node x = d.node x := fun x hx =>
      hrest x (List.mem_append_right _ hx)
    rw [Placed.forest, Head.modifyFirst?]
    rcases hfound : P.handles.find? (d.isElement name) with _ | y <;> rw [hfound] at hfirst
    · rw [Option.none_or] at hfirst
      have hmem : h ∈ allHandles Ps := List.mem_of_find?_eq_some hfirst
      obtain ⟨Ps', hhandles, hshows, hmod, hperm⟩ := ShowsAll.graft hPs.2 hnodupPs hfirst hsize
        hnode hAs hBs hrestPs
      have hnone : Head.modifyTree? name
          (fun kids => Placed.forest As ++ kids ++ Placed.forest Bs) P.tree = none := by
        rw [← Option.not_isSome_iff_eq_none, Head.isSome_modifyTree?, hPs.1.isSome_find?, hfound]
        simp
      refine ⟨P :: Ps', ?_, ⟨hPs.1.frame hsize fun x hx => ?_, hshows⟩, ?_, ?_⟩
      · rw [List.map_cons, List.map_cons, hhandles]
      · exact hrestP x hx fun heq => hdisjoint hx (heq ▸ hmem)
      · rw [hnone, hmod]
        rfl
      · rw [allHandles, allHandles]
        exact (hperm.append_left _).trans (List.perm_append_comm_assoc _ _ _)
    · rw [Option.some_or, Option.some_inj] at hfirst
      subst hfirst
      have hmem : y ∈ P.handles := List.mem_of_find?_eq_some hfound
      obtain ⟨P', hhandle, hshows, hmod, hperm⟩ := Shows.graft hPs.1 hnodupP hfound hsize hnode hAs
        hBs hrestP
      refine ⟨P' :: Ps, ?_, ⟨hshows, hPs.2.frame hsize fun x hx => ?_⟩, ?_, ?_⟩
      · rw [List.map_cons, List.map_cons, hhandle]
      · exact hrestPs x hx fun heq => hdisjoint hmem (heq ▸ hx)
      · rw [hmod]
        rfl
      · rw [allHandles, allHandles, ← List.append_assoc]
        exact hperm.append_right _
end

end Document
end Markup
end HtmlCompose
