/-
# A head made in place

Finding or making the head of a document loses nothing: every node that was below the root is
there once afterwards, as what it was, and asking again gives the same head and changes nothing
(`ensureHead_conserves`).  The new nodes are known exactly:

| the document has | new nodes | what moves |
| --- | --- | --- |
| a `head` | none | nothing |
| an `html` and no `head` | a `head`, the first child of that `html` | nothing |
| neither | `html` with `head` and `body`, and a declaration if none stands at the top | the nodes at the top that are no declarations |

In the last case all nodes below the top keep their records, so the trees that stood at the top are
shown where they come to stand (`Promoted.shows`), and they are those of the page built from the
trees (`forest_page`).
-/
import HtmlCompose.Proofs.Head.Grafts
import HtmlCompose.Proofs.Head.Sorting
import HtmlCompose.Proofs.Resolve.Filling

namespace HtmlCompose
namespace Markup
namespace Document

open Placed

variable {d d' : Document} {p q h head body : Handle} {top : List Handle}

/-! ### Chosen trees of a row -/

section chosen

variable {Ps : List Placed} {p : Placed → Bool} {parent parent' : Option Handle}

/-- Chosen trees of a shown row are shown. -/
theorem ShowsAll.filter (hPs : d.ShowsAll parent Ps) (p : Placed → Bool) :
    d.ShowsAll parent (Ps.filter p) := by
  induction Ps with
  | nil => trivial
  | cons P Ps ih =>
    rw [List.filter_cons]
    split
    · exact ⟨hPs.1, ih hPs.2⟩
    · exact ih hPs.2

/-- The nodes of the chosen trees and of the others are all nodes of the row. -/
theorem allHandles_filter_perm (p : Placed → Bool) (Ps : List Placed) :
    (allHandles (Ps.filter p) ++ allHandles (Ps.filter fun P => !p P)).Perm (allHandles Ps) := by
  rw [← allHandles_append]
  exact allHandles_perm (List.filter_append_perm p Ps)

/-- Chosen trees are shown below another parent once their topmost nodes have that parent. -/
theorem ShowsAll.moved (hPs : d.ShowsAll parent Ps) (hnodup : (allHandles Ps).Nodup)
    (hsize : d.size ≤ d'.size)
    (htop : ∀ x ∈ (Ps.filter p).map handle, d'.node x = { d.node x with parent := parent' })
    (hrest : ∀ x ∈ allHandles Ps, x ∉ Ps.map handle → d'.node x = d.node x) :
    d'.ShowsAll parent' (Ps.filter p) := by
  have hperm := allHandles_filter_perm p Ps
  obtain ⟨hchosen, -, hdisjoint⟩ := List.nodup_append'.1 (hperm.nodup_iff.2 hnodup)
  refine (hPs.filter p).reparent hchosen hsize htop fun x hx hxtop =>
    hrest x (hperm.subset (List.mem_append_left _ hx)) fun hmem => ?_
  -- a node on top of another tree is no node of a chosen one
  obtain ⟨P, hP, rfl⟩ := List.mem_map.1 hmem
  have hnot : ¬p P = true := fun hp => hxtop (List.mem_map_of_mem (List.mem_filter.2 ⟨hP, hp⟩))
  exact hdisjoint hx (Placed.map_handle_subset _
    (List.mem_map_of_mem (List.mem_filter.2 ⟨hP, by simp [hnot]⟩)))

/-- Choosing trees by their topmost nodes is choosing among these. -/
theorem map_handle_filter (p : Handle → Bool) (Ps : List Placed) :
    (Ps.filter fun P => p P.handle).map handle = (Ps.map handle).filter p := by
  rw [List.filter_map]
  rfl

end chosen

/-! ### The trees of a new page -/

/-- The trees of a page that has been built around old ones. -/
def page (d : Document) (Ps : List Placed) (html head body : Handle) : List Placed :=
  d.lead ++ Ps.filter (fun P => d.isDoctype P.handle) ++
    [.node html (.element ⟨"html", []⟩)
      [.node head (.element ⟨"head", []⟩) (Ps.filter fun P => d.isHeadLevel P.handle),
        .node body (.element ⟨"body", []⟩) (Ps.filter fun P => d.isBodyLevel P.handle)]]

section page

variable {Ps : List Placed} {html : Handle}

/-- The topmost nodes of a new page are the declarations and the `html`. -/
theorem map_handle_page : (d.page Ps html head body).map handle =
    d.lead.map handle ++ (Ps.map handle).filter d.isDoctype ++ [html] := by
  rw [page, List.map_append, List.map_append, map_handle_filter]
  rfl

/-- Each node at the top goes to one of three places. -/
theorem perm_levels (d : Document) (Ps : List Placed) :
    (Ps.filter (fun P => d.isDoctype P.handle) ++ Ps.filter (fun P => d.isHeadLevel P.handle) ++
      Ps.filter fun P => d.isBodyLevel P.handle).Perm Ps := by
  have hothers := List.filter_append_perm (fun P : Placed => d.isHeadLevel P.handle)
    (Ps.filter fun P => !d.isDoctype P.handle)
  have hhead : (Ps.filter fun P => !d.isDoctype P.handle).filter (fun P => d.isHeadLevel P.handle) =
      Ps.filter fun P => d.isHeadLevel P.handle := by
    rw [List.filter_filter]
    refine List.filter_congr fun P _ => ?_
    rcases hlevel : d.isHeadLevel P.handle
    · rfl
    · rw [isDoctype_eq_false hlevel]; rfl
  have hbody : (Ps.filter fun P => !d.isDoctype P.handle).filter
      (fun P => !d.isHeadLevel P.handle) = Ps.filter fun P => d.isBodyLevel P.handle := by
    rw [List.filter_filter]
    exact List.filter_congr fun P _ => Bool.and_comm _ _
  rw [hhead, hbody] at hothers
  rw [List.append_assoc]
  exact (hothers.append_left _).trans (List.filter_append_perm (fun P => d.isDoctype P.handle) Ps)

/-- **A new page has every old handle once**, and the new ones. -/
theorem perm_page : (allHandles (d.page Ps html head body)).Perm
    (allHandles d.lead ++ [html, head, body] ++ allHandles Ps) := by
  have hlevels := allHandles_perm (perm_levels d Ps)
  rw [allHandles_append, allHandles_append] at hlevels
  rw [page, allHandles_append, allHandles_append, allHandles_singleton, handles, allHandles,
    handles, allHandles_singleton, handles, List.append_assoc, List.append_assoc]
  refine List.Perm.append_left _ (List.Perm.trans ?_ (hlevels.append_left [html, head, body]))
  set docs := allHandles (Ps.filter fun P => d.isDoctype P.handle)
  set heads := allHandles (Ps.filter fun P => d.isHeadLevel P.handle)
  set bodies := allHandles (Ps.filter fun P => d.isBodyLevel P.handle)
  rw [List.perm_iff_count]
  intro x
  simp only [List.count_append, List.count_cons, List.count_nil]
  omega

/-- A shown node has the content of its tree. -/
theorem Shows.content_eq {parent : Option Handle} {P : Placed} (hP : d.Shows parent P) :
    d.content P.handle = P.tree.content := by
  obtain ⟨x, c, kids⟩ := P
  exact congrArg Node.content hP.2.1

/-- Trees chosen by their topmost nodes are those chosen by what they are. -/
theorem ShowsAll.forest_filter {parent : Option Handle} (hPs : d.ShowsAll parent Ps)
    {p : Handle → Bool} {q : Tree → Bool}
    (hpq : ∀ P, d.Shows parent P → p P.handle = q P.tree) :
    Placed.forest (Ps.filter fun P => p P.handle) = (Placed.forest Ps).filter q := by
  rw [forest_eq_map, forest_eq_map, List.filter_map]
  exact congrArg _ (List.filter_congr fun P hP => hpq P (hPs.of_mem hP))

/-- **A new page is the page of the old trees.** -/
theorem forest_page (hPs : d.ShowsAll (some root) Ps) (hchildren : d.children root = Ps.map handle) :
    Placed.forest (d.page Ps html head body) = Head.promote (Placed.forest Ps) := by
  have hdoctype : ∀ P, d.Shows (some root) P →
      d.isDoctype P.handle = P.tree.content.isDoctype := fun P hP => by
    rw [isDoctype, hP.content_eq]
  have hhead : ∀ P, d.Shows (some root) P →
      d.isHeadLevel P.handle = Head.isHeadLevel P.tree := fun P hP => by
    rw [isHeadLevel, element?, hP.content_eq]
    rfl
  have hbody : ∀ P, d.Shows (some root) P →
      d.isBodyLevel P.handle = (!P.tree.content.isDoctype && !Head.isHeadLevel P.tree) :=
    fun P hP => by rw [isBodyLevel, hdoctype P hP, hhead P hP]
  have hdocs := hPs.forest_filter (q := fun t => t.content.isDoctype) hdoctype
  have hfirst : Placed.forest d.lead ++ (Placed.forest Ps).filter (·.content.isDoctype) =
      if ((Placed.forest Ps).filter (·.content.isDoctype)).isEmpty
        then [.node (.doctype "<!DOCTYPE html>") []]
        else (Placed.forest Ps).filter (·.content.isDoctype) := by
    have hany : (Ps.map handle).any d.isDoctype =
        !(Ps.filter fun P => d.isDoctype P.handle).isEmpty := by
      rw [Bool.eq_iff_iff]
      simp
    rw [lead, hchildren, hany, ← hdocs]
    generalize (Ps.filter fun P => d.isDoctype P.handle) = docs
    cases docs <;> rfl
  rw [page, forest_append, forest_append, hdocs, hfirst, Head.promote]
  simp only [Placed.forest, Placed.tree, hPs.forest_filter (q := Head.isHeadLevel) hhead,
    hPs.forest_filter (q := fun t => !t.content.isDoctype && !Head.isHeadLevel t) hbody,
    List.filter_filter, Tree.ofElement]
  have hlevel : ∀ t : Tree, (Head.isHeadLevel t && !t.content.isDoctype) = Head.isHeadLevel t := by
    intro t
    rcases ht : Head.isHeadLevel t
    · rfl
    · rw [Head.isDoctype_of_isHeadLevel ht]
      rfl
  simp only [hlevel, Bool.and_comm]

/-- **The document shows the new page.** -/
theorem Promoted.shows (hp : Promoted d d' html head body)
    (hfresh : Fresh d d' (allHandles d.lead ++ [html, head, body]))
    (hPs : d.ShowsAll (some root) Ps) (hchildren : d.children root = Ps.map handle)
    (hnodup : (allHandles Ps).Nodup) (hnot : root ∉ allHandles Ps) :
    d'.ShowsAll (some root) (d.page Ps html head body) := by
  have hsize : d.size ≤ d'.size := hfresh.size ▸ Nat.le_add_right _ _
  have hlt : ∀ x ∈ [html, head, body], x < d'.size := fun x hx =>
    hfresh.lt (List.mem_append_right _ hx)
  have hrest : ∀ x ∈ allHandles Ps, x ∉ Ps.map handle → d'.node x = d.node x := fun x hx htop =>
    hp.stays x (hPs.lt x hx) (fun heq => hnot (heq ▸ hx)) (.inl (hchildren ▸ htop))
  have hdocs : d'.ShowsAll (some root) (Ps.filter fun P => d.isDoctype P.handle) := by
    refine hPs.moved hnodup hsize (fun x hx => ?_) hrest
    rw [map_handle_filter] at hx
    have htop := List.mem_of_mem_filter hx
    have hmem := Placed.map_handle_subset Ps htop
    rw [hp.stays x (hPs.lt x hmem) (fun heq => hnot (heq ▸ hmem)) (.inr (List.mem_filter.1 hx).2)]
    exact node_ext rfl (hPs.parent_of_mem htop) rfl
  have hheads : d'.ShowsAll (some head) (Ps.filter fun P => d.isHeadLevel P.handle) :=
    hPs.moved hnodup hsize (fun x hx => hp.toHead x
      (by rwa [map_handle_filter, ← hchildren] at hx)) hrest
  have hbodies : d'.ShowsAll (some body) (Ps.filter fun P => d.isBodyLevel P.handle) :=
    hPs.moved hnodup hsize (fun x hx => hp.toBody x
      (by rwa [map_handle_filter, ← hchildren] at hx)) hrest
  have hnodeHead := hp.nodeHead
  have hnodeBody := hp.nodeBody
  rw [hchildren, ← map_handle_filter] at hnodeHead hnodeBody
  refine (showsAll_append ..).2 ⟨(showsAll_append ..).2 ⟨hp.front, hdocs⟩, ⟨?_, hp.nodeHtml, ?_⟩,
    trivial⟩
  · exact hlt html (by simp)
  · exact ⟨⟨hlt head (by simp), hnodeHead, hheads⟩, ⟨hlt body (by simp), hnodeBody, hbodies⟩,
      trivial⟩

/-- No old node has become anything else, or has got other children, the root apart. -/
theorem Promoted.kept (hp : Promoted d d' html head body) {x : Handle} (hx : x < d.size)
    (hxroot : x ≠ root) : d'.content x = d.content x ∧ d'.children x = d.children x := by
  have hnode : ∃ parent, d'.node x = { d.node x with parent := parent } := by
    by_cases htop : x ∈ d.children root
    · rcases d.level_cases x with ⟨hdoctype, -, -⟩ | ⟨-, hlevel, -⟩ | ⟨-, -, hlevel⟩
      · exact ⟨_, hp.stays x hx hxroot (.inr hdoctype)⟩
      · exact ⟨_, hp.toHead x (List.mem_filter.2 ⟨htop, hlevel⟩)⟩
      · exact ⟨_, hp.toBody x (List.mem_filter.2 ⟨htop, hlevel⟩)⟩
    · exact ⟨_, hp.stays x hx hxroot (.inl htop)⟩
  obtain ⟨parent, hnode⟩ := hnode
  simp only [content, children, hnode, and_self]

/-- The new head is the only head among the new nodes. -/
theorem Promoted.only_head (hp : Promoted d d' html head body) {x : Handle}
    (hx : x ∈ allHandles d.lead ++ [html, head, body]) (hname : d'.isElement "head" x = true) :
    x = head := by
  rw [isElement, element?, content] at hname
  rw [List.mem_append] at hx
  rcases hx with hx | hx
  · have hfront := hp.front
    rw [lead] at hx hfront
    split at hx
    · exact absurd hx List.not_mem_nil
    next hdoctype =>
      rw [if_neg hdoctype] at hfront
      obtain rfl : x = d.size := by simpa [allHandles, handles] using hx
      rw [hfront.1.2.1] at hname
      cases hname
  · simp only [List.mem_cons, List.not_mem_nil, or_false] at hx
    rcases hx with rfl | rfl | rfl
    · rw [hp.nodeHtml] at hname
      exact absurd hname (show ¬sameName "html" "head" = true by decide)
    · rfl
    · rw [hp.nodeBody] at hname
      exact absurd hname (show ¬sameName "body" "head" = true by decide)

/-- The declarations in front of the page: those that stood at the top, or a new one. -/
theorem Promoted.declarations (hp : Promoted d d' html head body) :
    (d.children root).filter d.isDoctype =
        d.lead.map handle ++ (d.children root).filter d.isDoctype ∧
      d.lead.map handle ++ (d.children root).filter d.isDoctype ≠ [] ∨
    (d.children root).filter d.isDoctype = [] ∧ ∃ doctype,
      d.lead.map handle ++ (d.children root).filter d.isDoctype = [doctype] ∧
        d.size ≤ doctype ∧ d'.node doctype = ⟨.doctype "<!DOCTYPE html>", some root, []⟩ := by
  have hfront := hp.front
  rw [lead] at hfront ⊢
  split
  · next hdoctype =>
    refine .inl ⟨rfl, fun hnil => ?_⟩
    obtain ⟨x, hx, hxdoctype⟩ := List.any_eq_true.1 hdoctype
    exact List.filter_eq_nil_iff.1 hnil x hx hxdoctype
  · next hdoctype =>
    rw [if_neg hdoctype] at hfront
    have hnil : (d.children root).filter d.isDoctype = [] :=
      List.filter_eq_nil_iff.2 fun x hx hxdoctype =>
        hdoctype (List.any_eq_true.2 ⟨x, hx, hxdoctype⟩)
    refine .inr ⟨hnil, d.size, ?_, Nat.le_refl _, hfront.1.2.1⟩
    rw [hnil]
    rfl

end page

/-! ### Nothing is lost -/

/-- What finding or making a head has come to. -/
structure Headed (d d' : Document) (head : Handle) : Prop where
  /-- the head is an element of that name below the root -/
  found : head ∈ d'.descendants root ∧ d'.isElement "head" head = true
  /-- what was below the root is there once, as what it was -/
  conserved : ∀ x ∈ d.descendants root,
    (d'.descendants root).count x = 1 ∧ d'.content x = d.content x
  /-- asking again gives the same head and changes nothing -/
  again : d'.ensureHead = (d', head)
  /-- the trees are those of a page with a head -/
  trees : d'.forest = Head.ensureHead d.forest
  /-- a head that is there is left as it is, and all else too -/
  existing : ∀ h, d.findElement? root "head" = some h → d' = d ∧ head = h
  /-- where there is none, the first `html` gets one as its first child, and nothing else changes -/
  inHtml : d.findElement? root "head" = none → ∀ html, d.findElement? root "html" = some html →
    d.size ≤ head ∧ d'.node head = ⟨.element ⟨"head", []⟩, some html, []⟩ ∧
      d'.node html = { d.node html with children := head :: d.children html } ∧
      ∀ x < d.size, x ≠ html → d'.node x = d.node x
  /-- where there is neither, a page is built around what stands at the top -/
  whole : d.findElement? root "head" = none → d.findElement? root "html" = none →
    ∃ front html body, d'.children root = front ++ [html] ∧
      ((d.children root).filter d.isDoctype = front ∧ front ≠ [] ∨
        (d.children root).filter d.isDoctype = [] ∧ ∃ doctype, front = [doctype] ∧
          d.size ≤ doctype ∧
          d'.node doctype = ⟨.doctype "<!DOCTYPE html>", some root, []⟩) ∧
      (d.size ≤ html ∧ d'.node html = ⟨.element ⟨"html", []⟩, some root, [head, body]⟩) ∧
      (d.size ≤ head ∧ d'.node head = ⟨.element ⟨"head", []⟩, some html,
        (d.children root).filter d.isHeadLevel⟩) ∧
      (d.size ≤ body ∧ d'.node body = ⟨.element ⟨"body", []⟩, some html,
        (d.children root).filter fun x => !d.isDoctype x && !d.isHeadLevel x⟩) ∧
      ∀ x < d.size, x ≠ root → d'.children x = d.children x

/-- A walk finds the one node that passes. -/
theorem find?_of_unique {p : Handle → Bool} {l : List Handle} (hmem : h ∈ l) (hp : p h = true)
    (hother : ∀ x ∈ l, p x = true → x = h) : l.find? p = some h := by
  rcases hfind : l.find? p with _ | x
  · exact absurd hp (List.find?_eq_none.1 hfind h hmem)
  · rw [hother x (List.mem_of_find?_eq_some hfind) (List.find?_some hfind)]

/-- Where there is a head, nothing is made. -/
theorem ensureHead_of_find? (hfind : d.findElement? root "head" = some h) :
    d.ensureHead = (d, h) := by
  rw [ensureHead, hfind]

section root

variable {c : Content} {parent : Option Handle} {Ps Ps' : List Placed} {new : List Handle}

/-- A document with old and new nodes below its root has lost nothing, and a head among the new
ones is its only one. -/
theorem kept_of_shows (hP : d.Shows parent (.node root c Ps))
    (hnodup : (Placed.node root c Ps).handles.Nodup)
    (hnode : d'.node root = { d.node root with children := Ps'.map handle })
    (hshows : d'.ShowsAll (some root) Ps')
    (hperm : (allHandles Ps').Perm (new ++ allHandles Ps)) (hfresh : Fresh d d' new)
    (hcontent : ∀ x ∈ allHandles Ps, d'.content x = d.content x)
    (hnone : d.findElement? root "head" = none) (hhead : head ∈ new)
    (hname : d'.isElement "head" head = true)
    (honly : ∀ x ∈ new, d'.isElement "head" x = true → x = head) :
    (head ∈ d'.descendants root ∧ d'.isElement "head" head = true) ∧
      (∀ x ∈ d.descendants root,
        (d'.descendants root).count x = 1 ∧ d'.content x = d.content x) ∧
      d'.ensureHead = (d', head) ∧ d'.forest = Placed.forest Ps' := by
  have hsize : d.size ≤ d'.size := hfresh.size ▸ Nat.le_add_right _ _
  have hdescendants : d.descendants root = allHandles Ps := hP.descendants_eq hnodup
  obtain ⟨hnot, hnodupPs⟩ := List.nodup_cons.1 hnodup
  have hold : ∀ x ∈ allHandles Ps, x < d.size := hP.2.2.lt
  have hnodupNew : (new ++ allHandles Ps).Nodup := List.nodup_append'.2
    ⟨hfresh.nodup, hnodupPs, fun x hx hmem => absurd (hold x hmem) (Nat.not_lt.2 (hfresh.le hx))⟩
  have hP' : d'.Shows parent (.node root c Ps') := by
    refine ⟨hP.1.trans_le hsize, ?_, hshows⟩
    rw [hnode, hP.2.1]
  have hnodup' : (Placed.node root c Ps').handles.Nodup := by
    refine List.nodup_cons.2 ⟨fun hmem => ?_, hperm.nodup_iff.2 hnodupNew⟩
    rcases List.mem_append.1 (hperm.mem_iff.1 hmem) with hmem | hmem
    · exact absurd hP.1 (Nat.not_lt.2 (hfresh.le hmem))
    · exact hnot hmem
  have hdescendants' : d'.descendants root = allHandles Ps' := hP'.descendants_eq hnodup'
  have hmem : head ∈ d'.descendants root := by
    rw [hdescendants', hperm.mem_iff]
    exact List.mem_append_left _ hhead
  refine ⟨⟨hmem, hname⟩, fun x hx => ?_, ensureHead_of_find? (find?_of_unique hmem hname ?_),
    congrArg Tree.children (hP'.tree_eq hnodup')⟩
  · rw [hdescendants] at hx
    refine ⟨?_, hcontent x hx⟩
    rw [hdescendants', hperm.count_eq]
    exact List.count_eq_one_of_mem hnodupNew (List.mem_append_right _ hx)
  · intro x hx hxname
    rw [hdescendants', hperm.mem_iff, List.mem_append] at hx
    refine hx.elim (fun hx => honly x hx hxname) fun hx => absurd ?_ (List.find?_eq_none.1 hnone x
      (hdescendants ▸ hx))
    rwa [isElement, element?, ← hcontent x hx]

/-- The name of the head is its own. -/
theorem sameName_head : sameName "head" "head" = true := by decide

/-- A walk finds no element of a name where the trees have none. -/
theorem childrenOf?_forest (hP : d.Shows parent (.node root c Ps))
    (hnodup : (Placed.node root c Ps).handles.Nodup) {name : String}
    (hnone : d.findElement? root name = none) :
    Head.childrenOf? (Placed.forest Ps) name = none := by
  have hdescendants : d.descendants root = allHandles Ps := hP.descendants_eq hnodup
  rw [← Option.not_isSome_iff_eq_none, hP.2.2.isSome_find?, ← hdescendants, ← findElement?, hnone]
  simp

/-- A head that is there is all that is needed. -/
theorem headed_existing (hP : d.Shows parent (.node root c Ps))
    (hnodup : (Placed.node root c Ps).handles.Nodup)
    (hhead : d.findElement? root "head" = some head) : Headed d d head := by
  have hdescendants : d.descendants root = allHandles Ps := hP.descendants_eq hnodup
  have hforest : d.forest = Placed.forest Ps := congrArg Tree.children (hP.tree_eq hnodup)
  have hsome : (Head.childrenOf? d.forest "head").isSome = true := by
    rw [hforest, hP.2.2.isSome_find?, ← hdescendants, ← findElement?, hhead, Option.isSome_some]
  obtain ⟨kids, hkids⟩ := Option.isSome_iff_exists.1 hsome
  refine ⟨⟨List.mem_of_find?_eq_some hhead, List.find?_some hhead⟩, fun x hx => ⟨?_, rfl⟩,
    ensureHead_of_find? hhead, (Head.ensureHead_eq_self hkids).symm,
    fun h hh => ⟨rfl, Option.some.inj (hhead.symm.trans hh)⟩, fun hnone => ?_, fun hnone => ?_⟩
  · exact List.count_eq_one_of_mem (hdescendants ▸ (List.nodup_cons.1 hnodup).2) hx
  · cases hhead.symm.trans hnone
  · cases hhead.symm.trans hnone

/-- A head is put below the first `html`. -/
theorem headed_inHtml {html : Handle} (hP : d.Shows parent (.node root c Ps))
    (hnodup : (Placed.node root c Ps).handles.Nodup)
    (hnone : d.findElement? root "head" = none)
    (hhtml : d.findElement? root "html" = some html) :
    Headed d d.ensureHead.1 d.ensureHead.2 := by
  have hdescendants : d.descendants root = allHandles Ps := hP.descendants_eq hnodup
  have hforest : d.forest = Placed.forest Ps := congrArg Tree.children (hP.tree_eq hnodup)
  obtain ⟨hnot, hnodupPs⟩ := List.nodup_cons.1 hnodup
  have hmem : html ∈ allHandles Ps := hdescendants ▸ List.mem_of_find?_eq_some hhtml
  have hlt : html < d.size := hP.2.2.lt html hmem
  have heq : d.ensureHead =
      ((d.create (.element ⟨"head", []⟩)).1.prepend html d.size, d.size) := by
    rw [ensureHead, hnone, hhtml]
    rfl
  obtain ⟨hsize, hnode, hrest, hnew⟩ := prepend_create hlt (.element ⟨"head", []⟩)
  rw [heq]
  generalize (d.create (.element ⟨"head", []⟩)).1.prepend html d.size = e at hsize hnode hrest hnew
  have hfirst : (allHandles Ps).find? (d.isElement "html") = some html := hdescendants ▸ hhtml
  have hfresh : Fresh d e [d.size] := ⟨rfl, hsize⟩
  have hbefore : e.ShowsAll (some html) [.node d.size (.element ⟨"head", []⟩) []] := ⟨hnew, trivial⟩
  have hafter : e.ShowsAll (some html) [] := trivial
  obtain ⟨Ps', htop, hshows, hmod, hperm⟩ := hP.2.2.graft hnodupPs hfirst (hsize ▸ Nat.le_succ _)
    (by rw [hnode]; simp [children, handle]) hbefore hafter
    fun x hx hxhtml => hrest x (hP.2.2.lt x hx) hxhtml
  have hroot : e.node root = { d.node root with children := Ps'.map handle } := by
    rw [hrest root hP.1 fun heq => hnot (heq ▸ hmem), hP.2.1, htop]
  have hcontent : ∀ x < d.size, e.content x = d.content x := fun x hx => by
    by_cases hxhtml : x = html
    · rw [hxhtml, content, hnode]
      rfl
    · rw [content, hrest x hx hxhtml, content]
  have hnewNode : e.node d.size = ⟨.element ⟨"head", []⟩, some html, []⟩ := hnew.2.1
  obtain ⟨hfound, hconserved, hagain, htrees⟩ := kept_of_shows hP hnodup hroot hshows
    (by simpa [allHandles, handles] using hperm) hfresh
    (fun x hx => hcontent x (hP.2.2.lt x hx)) hnone List.mem_cons_self
    (by rw [isElement, element?, content, hnewNode]; exact sameName_head)
    fun x hx _ => List.mem_singleton.1 hx
  refine ⟨hfound, hconserved, hagain, ?_, fun h hh => ?_, fun _ h hh => ?_, fun _ hh => ?_⟩
  · have hchange : (fun kids => Placed.forest [.node d.size (.element ⟨"head", []⟩) []] ++ kids ++
        Placed.forest []) = (Tree.ofElement ⟨"head", []⟩ [] :: ·) := by
      funext kids
      exact List.append_nil _
    rw [hchange] at hmod
    rw [htrees, hforest, Head.ensureHead_of_none (childrenOf?_forest hP hnodup hnone), hmod,
      Option.getD_some]
  · cases hnone.symm.trans hh
  · obtain rfl : html = h := Option.some.inj (hhtml.symm.trans hh)
    exact ⟨Nat.le_refl _, hnewNode, hnode, hrest⟩
  · cases hhtml.symm.trans hh

/-- A whole page is built. -/
theorem headed_whole (hP : d.Shows parent (.node root c Ps))
    (hnodup : (Placed.node root c Ps).handles.Nodup)
    (hnone : d.findElement? root "head" = none) (hhtml : d.findElement? root "html" = none) :
    Headed d d.ensureHead.1 d.ensureHead.2 := by
  have hforest : d.forest = Placed.forest Ps := congrArg Tree.children (hP.tree_eq hnodup)
  have hchildren : d.children root = Ps.map handle := by rw [children, hP.2.1]
  obtain ⟨hnot, hnodupPs⟩ := List.nodup_cons.1 hnodup
  have htop : ∀ x ∈ d.children root, x < d.size ∧ x ≠ root ∧ d.parent? x = some root := by
    intro x hx
    rw [hchildren] at hx
    have hmem := Placed.map_handle_subset Ps hx
    exact ⟨hP.2.2.lt x hmem, fun heq => hnot (heq ▸ hmem), hP.2.2.parent_of_mem hx⟩
  have heq : d.ensureHead = d.promote := by rw [ensureHead, hnone, hhtml]
  obtain ⟨html, body, hfresh, hpromoted⟩ := promote_promoted hP.1 htop
    (hchildren ▸ (Placed.map_handle_sublist Ps).nodup hnodupPs)
  rw [heq]
  have hshows := hpromoted.shows hfresh hP.2.2 hchildren hnodupPs hnot
  have hle : ∀ x ∈ [html, d.promote.2, body], d.size ≤ x := fun x hx =>
    hfresh.le (List.mem_append_right _ hx)
  have hnodeHead : d.promote.1.content d.promote.2 = .element ⟨"head", []⟩ := by
    rw [content, hpromoted.nodeHead]
  obtain ⟨hfound, hconserved, hagain, htrees⟩ := kept_of_shows hP hnodup
    (by rw [hpromoted.nodeRoot, map_handle_page, hchildren]) hshows perm_page hfresh
    (fun x hx => (hpromoted.kept (hP.2.2.lt x hx) fun heq => hnot (heq ▸ hx)).1) hnone (by simp)
    (by rw [isElement, element?, hnodeHead]; exact sameName_head) fun x hx => hpromoted.only_head hx
  refine ⟨hfound, hconserved, hagain, ?_, fun h hh => ?_, fun _ h hh => ?_, fun _ _ => ?_⟩
  · have hmod : Head.modifyFirst? "html" (Tree.ofElement ⟨"head", []⟩ [] :: ·) (Placed.forest Ps) =
        none := by
      rw [← Option.not_isSome_iff_eq_none, Head.isSome_modifyFirst?,
        childrenOf?_forest hP hnodup hhtml]
      simp
    rw [htrees, hforest, Head.ensureHead_of_none (childrenOf?_forest hP hnodup hnone), hmod,
      Option.getD_none, forest_page hP.2.2 hchildren]
  · cases hnone.symm.trans hh
  · cases hhtml.symm.trans hh
  · refine ⟨d.lead.map handle ++ (d.children root).filter d.isDoctype, html, body, ?_, ?_,
      ⟨hle html (by simp), hpromoted.nodeHtml⟩, ⟨hle _ (by simp), hpromoted.nodeHead⟩,
      ⟨hle body (by simp), hpromoted.nodeBody⟩, fun x hx hxroot => (hpromoted.kept hx hxroot).2⟩
    · rw [children, hpromoted.nodeRoot]
    · exact hpromoted.declarations

end root

/-- **Finding or making a head loses nothing.**  Every node that was below the root is there once
afterwards, asking again changes nothing, and what is new is the head alone or a whole page around
what stood at the top. -/
theorem ensureHead_conserves (hd : d.WellFormed) (hroot : root < d.size) :
    Headed d d.ensureHead.1 d.ensureHead.2 := by
  obtain ⟨⟨x, c, Ps⟩, rfl, hshows⟩ := hd.exists_shows hroot
  have hnodup := hd.nodup_of_shows hshows
  rcases hhead : d.findElement? root "head" with _ | head
  · rcases hhtml : d.findElement? root "html" with _ | html
    · exact headed_whole hshows hnodup hhead hhtml
    · exact headed_inHtml hshows hnodup hhead hhtml
  · rw [ensureHead_of_find? hhead]
    exact headed_existing hshows hnodup hhead

/-- The hypotheses are satisfiable: a link and a title go to a new head, a heading and the text
around it to a new body, and two declarations stay. -/
theorem ensureHead_conserves_fragment : ∃ d : Document,
    parse "<h1>a</h1><!DOCTYPE html>b<link href=\"c\"><!DOCTYPE svg><TITLE>d</TITLE>" = .ok d ∧
    d.WellFormed ∧ root < d.size ∧ Headed d d.ensureHead.1 d.ensureHead.2 ∧
    d.findElement? root "head" = none ∧ d.findElement? root "html" = none ∧
    (d.children root).filter d.isDoctype = [3, 6] ∧
    (d.children root).filter d.isHeadLevel = [5, 7] ∧
    ((d.children root).filter fun x => !d.isDoctype x && !d.isHeadLevel x) = [1, 4] := by
  obtain ⟨d, hparse, hroot, hlevels⟩ := exists_ok_of_any
    (x := parse "<h1>a</h1><!DOCTYPE html>b<link href=\"c\"><!DOCTYPE svg><TITLE>d</TITLE>")
    (p := fun d => root < d.size ∧
      d.findElement? root "head" = none ∧ d.findElement? root "html" = none ∧
      (d.children root).filter d.isDoctype = [3, 6] ∧
      (d.children root).filter d.isHeadLevel = [5, 7] ∧
      ((d.children root).filter fun x => !d.isDoctype x && !d.isHeadLevel x) = [1, 4])
    (by decide +kernel)
  exact ⟨d, hparse, wellFormed_of_parse hparse, hroot,
    ensureHead_conserves (wellFormed_of_parse hparse) hroot, hlevels⟩

end Document
end Markup
end HtmlCompose
