/-
# A page built around the top of a document

A document without `html` and `head` gets a whole page (`promote_promoted`), in three steps:

| step | what is known after it |
| --- | --- |
| the page is made beside the top, and a declaration in front of it unless one stands there | `Opened` |
| the nodes at the top are moved to the page one by one, the declarations stay | `Sorts` |
| the page is put below the root | `Promoted` |

Nodes are moved out of the list that is rebuilt and to the ends of two others.  What one move does
(`sorts_sortInto`) adds up, because no move changes what the nodes are (`sorts_all`).
-/
import HtmlCompose.Head.Promotion
import HtmlCompose.Proofs.Markup.Moves

namespace HtmlCompose
namespace Markup
namespace Document

open Placed

variable {d d' : Document} {p q h head body : Handle} {top : List Handle}

/-! ### Moving the nodes at the top -/

/-- A node goes to the body: it is neither a declaration nor belongs into a head. -/
def isBodyLevel (d : Document) (h : Handle) : Bool := !d.isDoctype h && !d.isHeadLevel h

/-- A node that goes to the head is no declaration. -/
theorem isDoctype_eq_false (h : d.isHeadLevel p = true) : d.isDoctype p = false := by
  rw [isHeadLevel, element?] at h
  rw [isDoctype]
  rcases hc : d.content p with _ | e | _ | _ | _ <;> rw [hc] at h <;> first | rfl | cases h

/-- A node is a declaration, or goes to the head, or goes to the body. -/
theorem level_cases (d : Document) (h : Handle) :
    (d.isDoctype h = true ∧ d.isHeadLevel h = false ∧ d.isBodyLevel h = false) ∨
    (d.isDoctype h = false ∧ d.isHeadLevel h = true ∧ d.isBodyLevel h = false) ∨
    d.isDoctype h = false ∧ d.isHeadLevel h = false ∧ d.isBodyLevel h = true := by
  have hhead := d.isDoctype_eq_false (p := h)
  rw [isBodyLevel]
  rcases hdoctype : d.isDoctype h <;> rcases hlevel : d.isHeadLevel h <;> simp_all

/-- A child of one node is put behind the children of another one. -/
theorem moves_append (hh : d.parent? h = some q) (hp : p < d.size) (hq : q < d.size)
    (hpq : p ≠ q) (hph : p ≠ h) (hqh : q ≠ h) :
    Moves d (d.append p h) p q [h] (d.children p ++ [h]) :=
  moves_link hh hp hq hpq hph hqh _

/-- Children of the root have been moved to the ends of a head and of a body, and nothing else has
happened. -/
structure Sorts (d d' : Document) (head body : Handle) (top : List Handle) : Prop where
  size : d'.size = d.size
  content : ∀ x, d'.content x = d.content x
  parent : ∀ x, d'.parent? x =
    if x ∈ top.filter d.isHeadLevel then some head
    else if x ∈ top.filter d.isBodyLevel then some body else d.parent? x
  left : d'.children root = (d.children root).filter fun x => x ∉ top ∨ d.isDoctype x
  inHead : d'.children head = d.children head ++ top.filter d.isHeadLevel
  inBody : d'.children body = d.children body ++ top.filter d.isBodyLevel
  rest : ∀ x, x ≠ root → x ≠ head → x ≠ body → d'.children x = d.children x

/-- One node is sorted. -/
theorem sorts_sortInto (hh : d.parent? h = some root) (hroot : root < d.size)
    (hhead : head < d.size ∧ head ≠ root ∧ head ≠ h) (hbody : body < d.size ∧ body ≠ root ∧ body ≠ h)
    (hne : head ≠ body) (hrooth : root ≠ h) :
    Sorts d (sortInto head body d h) head body [h] := by
  have hleft : d.isDoctype h = false → ∀ l : List Handle, l.filter (· ∉ [h]) =
      l.filter fun x => x ∉ [h] ∨ d.isDoctype x := fun hdoctype l =>
    List.filter_congr fun x _ => by by_cases hx : x = h <;> simp [hx, hdoctype]
  rw [sortInto]
  rcases d.level_cases h with ⟨hdoctype, hlevel, hbodyLevel⟩ | ⟨hdoctype, hlevel, hbodyLevel⟩ |
    ⟨hdoctype, hlevel, hbodyLevel⟩ <;> rw [hdoctype]
  · refine ⟨rfl, fun _ => rfl, fun x => ?_, ?_, ?_, ?_, fun _ _ _ _ => rfl⟩
    · simp [hlevel, hbodyLevel]
    · refine (List.filter_eq_self.2 fun x _ => ?_).symm
      by_cases hx : x = h <;> simp [hx, hdoctype]
    · simp [hlevel]
    · simp [hbodyLevel]
  · have hmoves := moves_append hh hhead.1 hroot hhead.2.1 hhead.2.2 hrooth
    rw [if_neg Bool.false_ne_true, if_pos hlevel]
    refine ⟨hmoves.size, hmoves.content, fun x => ?_, ?_, ?_, ?_, fun x hx hxhead _ =>
      hmoves.rest x hxhead hx⟩
    · rw [hmoves.parent]
      simp [hlevel, hbodyLevel]
    · rw [hmoves.left, hleft hdoctype]
    · rw [hmoves.there]
      simp [hlevel]
    · rw [hmoves.rest body hne.symm hbody.2.1]
      simp [hbodyLevel]
  · have hmoves := moves_append hh hbody.1 hroot hbody.2.1 hbody.2.2 hrooth
    rw [if_neg Bool.false_ne_true, if_neg (by simp [hlevel])]
    refine ⟨hmoves.size, hmoves.content, fun x => ?_, ?_, ?_, ?_, fun x hx _ hxbody =>
      hmoves.rest x hxbody hx⟩
    · rw [hmoves.parent]
      simp [hlevel, hbodyLevel]
    · rw [hmoves.left, hleft hdoctype]
    · rw [hmoves.rest head hne hhead.2.1]
      simp [hlevel]
    · rw [hmoves.there]
      simp [hbodyLevel]

/-- What a node is does not depend on its links. -/
theorem levels_congr (hcontent : ∀ x, d'.content x = d.content x) :
    d'.isDoctype = d.isDoctype ∧ d'.isHeadLevel = d.isHeadLevel ∧ d'.isBodyLevel = d.isBodyLevel := by
  have hdoctype : d'.isDoctype = d.isDoctype := funext fun x => by
    rw [isDoctype, hcontent, isDoctype]
  have hlevel : d'.isHeadLevel = d.isHeadLevel := funext fun x => by
    rw [isHeadLevel, element?, hcontent, isHeadLevel, element?]
  exact ⟨hdoctype, hlevel, funext fun x => by rw [isBodyLevel, hdoctype, hlevel, isBodyLevel]⟩

/-- **All nodes at the top are sorted**, one after another. -/
theorem sorts_all (hroot : root < d.size) (hhead : head < d.size ∧ head ≠ root ∧ head ∉ top)
    (hbody : body < d.size ∧ body ≠ root ∧ body ∉ top) (hne : head ≠ body)
    (htop : ∀ x ∈ top, d.parent? x = some root ∧ x ≠ root) (hnodup : top.Nodup) :
    Sorts d (top.foldl (sortInto head body) d) head body top := by
  induction top generalizing d with
  | nil => exact ⟨rfl, fun _ => rfl, fun x => by simp, by simp, by simp, by simp, fun _ _ _ _ => rfl⟩
  | cons h top ih =>
    obtain ⟨⟨hh, hhroot⟩, hrest⟩ := List.forall_mem_cons.1 htop
    obtain ⟨hnot, hnodup⟩ := List.nodup_cons.1 hnodup
    simp only [List.mem_cons, not_or] at hhead hbody
    have hone := sorts_sortInto hh hroot ⟨hhead.1, hhead.2.1, hhead.2.2.1⟩
      ⟨hbody.1, hbody.2.1, hbody.2.2.1⟩ hne hhroot.symm
    obtain ⟨hdoctype, hlevel, hbodyLevel⟩ := levels_congr hone.content
    have hparent : ∀ x, x ≠ h → (sortInto head body d h).parent? x = d.parent? x := fun x hx => by
      rw [hone.parent, if_neg, if_neg] <;> simp [hx]
    have hmore := ih (hroot.trans_eq hone.size.symm)
      ⟨hhead.1.trans_eq hone.size.symm, hhead.2.1, hhead.2.2.2⟩
      ⟨hbody.1.trans_eq hone.size.symm, hbody.2.1, hbody.2.2.2⟩
      (fun x hx => ⟨(hparent x fun heq => hnot (heq ▸ hx)).trans (hrest x hx).1, (hrest x hx).2⟩)
      hnodup
    rw [List.foldl_cons]
    refine ⟨hmore.size.trans hone.size, fun x => (hmore.content x).trans (hone.content x),
      fun x => ?_, ?_, ?_, ?_, fun x hx hxhead hxbody =>
        (hmore.rest x hx hxhead hxbody).trans (hone.rest x hx hxhead hxbody)⟩
    · rw [hmore.parent, hone.parent, hlevel, hbodyLevel]
      by_cases hx : x = h
      · subst hx
        simp [hnot]
      · simp [hx]
    · rw [hmore.left, hone.left, hdoctype, List.filter_filter]
      refine List.filter_congr fun x _ => ?_
      by_cases hx : x = h
      · subst hx
        simp [hnot]
      · simp [hx]
    · rw [hmore.inHead, hone.inHead, hlevel, List.append_assoc, ← List.filter_append]
      rfl
    · rw [hmore.inBody, hone.inBody, hbodyLevel, List.append_assoc, ← List.filter_append]
      rfl

/-! ### New nodes -/

/-- A new node in front of the children of another one. -/
theorem prepend_create (hp : p < d.size) (c : Content) :
    ((d.create c).1.prepend p d.size).size = d.size + 1 ∧
      ((d.create c).1.prepend p d.size).node p =
        { d.node p with children := d.size :: d.children p } ∧
      (∀ x < d.size, x ≠ p → ((d.create c).1.prepend p d.size).node x = d.node x) ∧
      ((d.create c).1.prepend p d.size).Shows (some p) (.node d.size c []) := by
  have hsize : d.size < (d.create c).1.size := by rw [size_create]; exact Nat.lt_succ_self _
  have hnew : (d.create c).1.Shows none (.node d.size c []) :=
    ⟨hsize, node_create_self d c, trivial⟩
  have hlink := link_fresh hp hnew ⟨rfl, size_create d c⟩ (fun x hx => node_create_of_lt hx c)
    (d.size :: ·)
  have hfree : ((d.create c).1.node d.size).parent = none := hnew.parent_eq
  rw [prepend, detach_eq_self hfree]
  exact ⟨hlink.1.trans (size_create d c), hlink.2⟩

/-- The new declaration in front of the top, unless one stands among it. -/
def lead (d : Document) : List Placed :=
  if (d.children root).any d.isDoctype then []
  else [.node d.size (.doctype "<!DOCTYPE html>") []]

/-- A new declaration stands in front of the top, and nothing else has happened. -/
theorem ensureDoctype_spec (hroot : root < d.size) :
    (d.ensureDoctype (d.children root)).ShowsAll (some root) d.lead ∧
      Fresh d (d.ensureDoctype (d.children root)) (allHandles d.lead) ∧
      (d.ensureDoctype (d.children root)).node root =
        { d.node root with children := d.lead.map handle ++ d.children root } ∧
      ∀ x < d.size, x ≠ root → (d.ensureDoctype (d.children root)).node x = d.node x := by
  have heq : d.ensureDoctype (d.children root) = if (d.children root).any d.isDoctype then d
      else (d.create (.doctype "<!DOCTYPE html>")).1.prepend root d.size := rfl
  rw [heq, lead]
  split
  · exact ⟨trivial, ⟨rfl, rfl⟩, rfl, fun _ _ _ => rfl⟩
  · obtain ⟨hsize, hnode, hrest, hshows⟩ := prepend_create hroot (.doctype "<!DOCTYPE html>")
    exact ⟨⟨hshows, trivial⟩, ⟨rfl, hsize⟩, hnode, hrest⟩

/-- A node without a parent is put behind the children of another one. -/
theorem append_free (hfree : (d.node h).parent = none) (hp : p < d.size) (hh : h < d.size)
    (hne : p ≠ h) : (d.append p h).size = d.size ∧
      (d.append p h).node p = { d.node p with children := d.children p ++ [h] } ∧
      (d.append p h).node h = { d.node h with parent := some p } ∧
      ∀ x, x ≠ p → x ≠ h → (d.append p h).node x = d.node x := by
  rw [append_eq_link hfree]
  exact ⟨size_link .., node_link_parent hp hne _, node_link_self hh hne _,
    fun x hxp hxh => node_link_of_ne hxp hxh _⟩

/-- Two nodes without a parent are put below a third one. -/
theorem append_pair {x y z : Handle} {a b c : Content} (hx : x < d.size) (hy : y < d.size)
    (hz : z < d.size) (hxy : x ≠ y) (hxz : x ≠ z) (hyz : y ≠ z) (hnodeX : d.node x = ⟨a, none, []⟩)
    (hnodeY : d.node y = ⟨b, none, []⟩) (hnodeZ : d.node z = ⟨c, none, []⟩) :
    ((d.append x y).append x z).size = d.size ∧
      ((d.append x y).append x z).node x = ⟨a, none, [y, z]⟩ ∧
      ((d.append x y).append x z).node y = ⟨b, some x, []⟩ ∧
      ((d.append x y).append x z).node z = ⟨c, some x, []⟩ ∧
      ∀ u, u ≠ x → u ≠ y → u ≠ z → ((d.append x y).append x z).node u = d.node u := by
  obtain ⟨hsize, hparent, hfirst, hrest⟩ := append_free (by rw [hnodeY]) hx hy hxy
  have hfree : ((d.append x y).node z).parent = none := by rw [hrest z hxz.symm hyz.symm, hnodeZ]
  obtain ⟨hsize', hparent', hsecond, hrest'⟩ := append_free hfree (hsize ▸ hx) (hsize ▸ hz) hxz
  refine ⟨hsize'.trans hsize, ?_, ?_, ?_, fun u hux huy huz => ?_⟩
  · rw [hparent', children, hparent, hnodeX, children, hnodeX]
    rfl
  · rw [hrest' y hxy.symm hyz, hfirst, hnodeY]
  · rw [hsecond, hrest z hxz.symm hyz.symm, hnodeZ]
  · rw [hrest' u hux huz, hrest u hux huy]

/-- An empty page is `html` with a head and a body, all of them new. -/
theorem createPage_spec (d : Document) : ∃ e : Document,
    d.createPage = (e, d.size, d.size + 1, d.size + 2) ∧ e.size = d.size + 3 ∧
      e.node d.size = ⟨.element ⟨"html", []⟩, none, [d.size + 1, d.size + 2]⟩ ∧
      e.node (d.size + 1) = ⟨.element ⟨"head", []⟩, some d.size, []⟩ ∧
      e.node (d.size + 2) = ⟨.element ⟨"body", []⟩, some d.size, []⟩ ∧
      ∀ x < d.size, e.node x = d.node x := by
  set e₁ := (d.create (.element ⟨"html", []⟩)).1 with he₁
  set e₂ := (e₁.create (.element ⟨"head", []⟩)).1 with he₂
  set e₃ := (e₂.create (.element ⟨"body", []⟩)).1 with he₃
  have h₁ : e₁.size = d.size + 1 := size_create d _
  have h₂ : e₂.size = d.size + 2 := (size_create e₁ _).trans (by rw [h₁])
  have h₃ : e₃.size = d.size + 3 := (size_create e₂ _).trans (by rw [h₂])
  have hpage : d.createPage = ((e₃.append d.size e₁.size).append d.size e₂.size, d.size, e₁.size,
      e₂.size) := rfl
  have hkept₂ : ∀ x < e₁.size, e₂.node x = e₁.node x := fun x hx => node_create_of_lt hx _
  have hkept₃ : ∀ x < e₂.size, e₃.node x = e₂.node x := fun x hx => node_create_of_lt hx _
  have hhtml : e₃.node d.size = ⟨.element ⟨"html", []⟩, none, []⟩ := by
    rw [hkept₃ d.size (by omega), hkept₂ d.size (by omega), he₁, node_create_self]
  have hhead : e₃.node (d.size + 1) = ⟨.element ⟨"head", []⟩, none, []⟩ := by
    rw [hkept₃ (d.size + 1) (by omega), he₂, ← h₁, node_create_self]
  have hbody : e₃.node (d.size + 2) = ⟨.element ⟨"body", []⟩, none, []⟩ := by
    rw [he₃, ← h₂, node_create_self]
  have hlt : d.size < e₃.size ∧ d.size + 1 < e₃.size ∧ d.size + 2 < e₃.size := by omega
  obtain ⟨hsize, hnodeHtml, hnodeHead, hnodeBody, hrest⟩ := append_pair hlt.1 hlt.2.1 hlt.2.2
    (Nat.ne_of_lt (by omega)) (Nat.ne_of_lt (by omega)) (Nat.ne_of_lt (by omega)) hhtml hhead hbody
  rw [hpage, h₁, h₂]
  refine ⟨_, rfl, hsize.trans h₃, hnodeHtml, hnodeHead, hnodeBody, fun x hx => ?_⟩
  rw [hrest x (Nat.ne_of_lt (by omega)) (Nat.ne_of_lt (by omega)) (Nat.ne_of_lt (by omega)),
    hkept₃ x (by omega), hkept₂ x (by omega), he₁, node_create_of_lt hx]

/-! ### Where the old nodes come to stand -/

namespace Sorts

variable {x : Handle} (hsorts : Sorts d d' head body top)

include hsorts

/-- A node that does not move, and is none of the three that others move to or from, stays as it
is. -/
theorem node_eq (hx : x ≠ root ∧ x ≠ head ∧ x ≠ body) (hstays : x ∉ top ∨ d.isDoctype x = true) :
    d'.node x = d.node x := by
  have hlevel : x ∉ top.filter d.isHeadLevel ∧ x ∉ top.filter d.isBodyLevel := by
    rcases d.level_cases x with h | h | h <;> simp_all
  refine node_ext (hsorts.content x) ?_ (hsorts.rest x hx.1 hx.2.1 hx.2.2)
  rw [← parent?, hsorts.parent, if_neg hlevel.1, if_neg hlevel.2]
  rfl

/-- A node of the head level is below the head afterwards, and otherwise as it was. -/
theorem node_head (hx : x ≠ root ∧ x ≠ head ∧ x ≠ body) (hmem : x ∈ top.filter d.isHeadLevel) :
    d'.node x = { d.node x with parent := some head } := by
  refine node_ext (hsorts.content x) ?_ (hsorts.rest x hx.1 hx.2.1 hx.2.2)
  rw [← parent?, hsorts.parent, if_pos hmem]

/-- A node of the body level is below the body afterwards, and otherwise as it was. -/
theorem node_body (hx : x ≠ root ∧ x ≠ head ∧ x ≠ body) (hmem : x ∈ top.filter d.isBodyLevel) :
    d'.node x = { d.node x with parent := some body } := by
  have hnot : x ∉ top.filter d.isHeadLevel := by
    rcases d.level_cases x with h | h | h <;> simp_all
  refine node_ext (hsorts.content x) ?_ (hsorts.rest x hx.1 hx.2.1 hx.2.2)
  rw [← parent?, hsorts.parent, if_neg hnot, if_pos hmem]

end Sorts

/-- A page has been built around what stood at the top, some new declarations in front of it. -/
structure Promoted (d d' : Document) (html head body : Handle) : Prop where
  front : d'.ShowsAll (some root) d.lead
  nodeRoot : d'.node root =
    { d.node root with
      children := d.lead.map handle ++ (d.children root).filter d.isDoctype ++ [html] }
  nodeHtml : d'.node html = ⟨.element ⟨"html", []⟩, some root, [head, body]⟩
  nodeHead : d'.node head =
    ⟨.element ⟨"head", []⟩, some html, (d.children root).filter d.isHeadLevel⟩
  nodeBody : d'.node body =
    ⟨.element ⟨"body", []⟩, some html, (d.children root).filter d.isBodyLevel⟩
  stays : ∀ x < d.size, x ≠ root → x ∉ d.children root ∨ d.isDoctype x = true →
    d'.node x = d.node x
  toHead : ∀ x ∈ (d.children root).filter d.isHeadLevel,
    d'.node x = { d.node x with parent := some head }
  toBody : ∀ x ∈ (d.children root).filter d.isBodyLevel,
    d'.node x = { d.node x with parent := some body }

/-- A node that has stayed as it was goes where it would have gone. -/
theorem levels_of_node {x : Handle} (hnode : d'.node x = d.node x) :
    d'.isDoctype x = d.isDoctype x ∧ d'.isHeadLevel x = d.isHeadLevel x ∧
      d'.isBodyLevel x = d.isBodyLevel x := by
  simp only [isBodyLevel, isDoctype, isHeadLevel, element?, content, hnode, and_self]

/-- A new page stands beside the top: a declaration in front of the top if it needs one, and three
elements that are not below the root yet. -/
structure Opened (d e : Document) (html head body : Handle) : Prop where
  fresh : Fresh d e (allHandles d.lead ++ [html, head, body])
  front : e.ShowsAll (some root) d.lead
  nodeRoot : e.node root =
    { d.node root with children := d.lead.map handle ++ d.children root }
  nodeHtml : e.node html = ⟨.element ⟨"html", []⟩, none, [head, body]⟩
  nodeHead : e.node head = ⟨.element ⟨"head", []⟩, some html, []⟩
  nodeBody : e.node body = ⟨.element ⟨"body", []⟩, some html, []⟩
  kept : ∀ x < d.size, x ≠ root → e.node x = d.node x

/-- The steps up to the empty page open one beside the top. -/
theorem exists_opened (hroot : root < d.size) : ∃ e html head body,
    (d.ensureDoctype (d.children root)).createPage = (e, html, head, body) ∧
      Opened d e html head body := by
  obtain ⟨hshows, hfresh, hnodeRoot, hkept⟩ := ensureDoctype_spec hroot
  obtain ⟨e, hpage, hsize, hhtml, hhead, hbody, hrest⟩ :=
    createPage_spec (d.ensureDoctype (d.children root))
  have hle : d.size ≤ (d.ensureDoctype (d.children root)).size :=
    hfresh.size ▸ Nat.le_add_right _ _
  refine ⟨e, _, _, _, hpage, hfresh.trans ⟨rfl, hsize⟩, ?_, ?_, hhtml, hhead, hbody,
    fun x hx hxroot => (hrest x (hx.trans_le hle)).trans (hkept x hx hxroot)⟩
  · exact hshows.frame (hsize ▸ Nat.le_add_right _ _) fun x hx => hrest x (hshows.lt x hx)
  · rw [hrest root (hroot.trans_le hle), hnodeRoot]

namespace Opened

variable {e : Document} {html : Handle} (ho : Opened d e html head body) (hroot : root < d.size)
  (htop : ∀ x ∈ d.children root, x < d.size ∧ x ≠ root ∧ d.parent? x = some root)

include ho

/-- The new nodes are different. -/
theorem ne : (html ≠ head ∧ html ≠ body ∧ head ≠ body) ∧
    ∀ x ∈ allHandles d.lead, x ≠ html ∧ x ≠ head ∧ x ≠ body := by
  obtain ⟨-, hpage, hdisjoint⟩ := List.nodup_append'.1 ho.fresh.nodup
  refine ⟨by simpa [and_assoc] using hpage, fun x hx => ?_⟩
  simpa using hdisjoint hx

include hroot

/-- The new nodes are not the root. -/
theorem ne_root {x : Handle} (hx : x ∈ allHandles d.lead ++ [html, head, body]) : x ≠ root :=
  (hroot.trans_le (ho.fresh.le hx)).ne'

include htop

omit hroot in
/-- The new nodes do not stand at the top. -/
theorem not_mem_top {x : Handle} (hx : x ∈ allHandles d.lead ++ [html, head, body]) :
    x ∉ d.children root := fun hmem =>
  absurd (htop x hmem).1 (Nat.not_lt.2 (ho.fresh.le hx))

omit hroot in
/-- The nodes at the top go where they would have gone before the page was opened. -/
theorem levels {x : Handle} (hx : x ∈ d.children root) :
    e.isDoctype x = d.isDoctype x ∧ e.isHeadLevel x = d.isHeadLevel x ∧
      e.isBodyLevel x = d.isBodyLevel x :=
  levels_of_node (ho.kept x (htop x hx).1 (htop x hx).2.1)

/-- The top is sorted into the new page. -/
theorem sorts (hnodup : (d.children root).Nodup) :
    Sorts e ((d.children root).foldl (sortInto head body) e) head body (d.children root) := by
  have hnew : ∀ x ∈ [head, body], x < e.size ∧ x ≠ root ∧ x ∉ d.children root := fun x hx => by
    have hmem : x ∈ allHandles d.lead ++ [html, head, body] :=
      List.mem_append_right _ (List.mem_cons_of_mem _ hx)
    exact ⟨ho.fresh.lt hmem, ho.ne_root hroot hmem, ho.not_mem_top htop hmem⟩
  refine sorts_all (hroot.trans_le (ho.fresh.size ▸ Nat.le_add_right _ _)) (hnew head (by simp))
    (hnew body (by simp)) ho.ne.1.2.2 (fun x hx => ⟨?_, (htop x hx).2.1⟩) hnodup
  rw [parent?, ho.kept x (htop x hx).1 (htop x hx).2.1]
  exact (htop x hx).2.2

omit hroot in
/-- Behind the declarations, nothing is left at the top. -/
theorem children_root {e' : Document} (hsorts : Sorts e e' head body (d.children root)) :
    e'.children root = d.lead.map handle ++ (d.children root).filter d.isDoctype := by
  have hfront : ∀ x ∈ d.lead.map handle, x ∉ d.children root := fun x hx =>
    ho.not_mem_top htop (List.mem_append_left _ (Placed.map_handle_subset _ hx))
  have hchildren : e.children root = d.lead.map handle ++ d.children root := by
    rw [children, ho.nodeRoot]
  rw [hsorts.left, hchildren, List.filter_append, List.filter_eq_self.2 fun x hx => by
    simp [hfront x hx]]
  refine congrArg _ (List.filter_congr fun x hx => ?_)
  simp [hx, (ho.levels htop hx).1]

omit hroot htop in
/-- The old nodes are none of the new ones. -/
theorem ne_of_lt {x : Handle} (hx : x < d.size) : x ≠ html ∧ x ≠ head ∧ x ≠ body := by
  have hne : ∀ y ∈ [html, head, body], x ≠ y := fun y hy =>
    (hx.trans_le (ho.fresh.le (List.mem_append_right _ hy))).ne
  exact ⟨hne html (by simp), hne head (by simp), hne body (by simp)⟩

omit hroot in
/-- The sorting leaves an old node where it was, or moves it from the top to the head or to the
body. -/
theorem node_old {e' : Document} (hsorts : Sorts e e' head body (d.children root)) :
    (∀ x < d.size, x ≠ root → x ∉ d.children root ∨ d.isDoctype x = true →
      e'.node x = d.node x) ∧
    (∀ x ∈ (d.children root).filter d.isHeadLevel,
      e'.node x = { d.node x with parent := some head }) ∧
    ∀ x ∈ (d.children root).filter d.isBodyLevel,
      e'.node x = { d.node x with parent := some body } := by
  refine ⟨fun x hx hxroot hx' => ?_, fun x hx => ?_, fun x hx => ?_⟩
  · rw [hsorts.node_eq ⟨hxroot, (ho.ne_of_lt hx).2⟩ ?_, ho.kept x hx hxroot]
    exact hx'.imp_right fun hdoctype => by rwa [(levels_of_node (ho.kept x hx hxroot)).1]
  · obtain ⟨hmem, hlevel⟩ := List.mem_filter.1 hx
    obtain ⟨hlt, hxroot, -⟩ := htop x hmem
    have hmoved : x ∈ (d.children root).filter e.isHeadLevel :=
      List.mem_filter.2 ⟨hmem, (ho.levels htop hmem).2.1.trans hlevel⟩
    rw [hsorts.node_head ⟨hxroot, (ho.ne_of_lt hlt).2⟩ hmoved, ho.kept x hlt hxroot]
  · obtain ⟨hmem, hlevel⟩ := List.mem_filter.1 hx
    obtain ⟨hlt, hxroot, -⟩ := htop x hmem
    have hmoved : x ∈ (d.children root).filter e.isBodyLevel :=
      List.mem_filter.2 ⟨hmem, (ho.levels htop hmem).2.2.trans hlevel⟩
    rw [hsorts.node_body ⟨hxroot, (ho.ne_of_lt hlt).2⟩ hmoved, ho.kept x hlt hxroot]

/-- The sorting leaves the new declaration and the new `html` as they are, and fills the head and
the body. -/
theorem node_new {e' : Document} (hsorts : Sorts e e' head body (d.children root)) :
    (∀ x ∈ allHandles d.lead ++ [html], e'.node x = e.node x) ∧
    e'.node head = ⟨.element ⟨"head", []⟩, some html, (d.children root).filter d.isHeadLevel⟩ ∧
    e'.node body = ⟨.element ⟨"body", []⟩, some html, (d.children root).filter d.isBodyLevel⟩ := by
  obtain ⟨⟨hhtmlHead, hhtmlBody, -⟩, hlead⟩ := ho.ne
  have hparent : ∀ x ∈ [head, body], e'.parent? x = e.parent? x := fun x hx => by
    have hnot : x ∉ d.children root := ho.not_mem_top htop
      (List.mem_append_right _ (List.mem_cons_of_mem _ hx))
    rw [hsorts.parent, if_neg, if_neg] <;> exact fun hmem => hnot (List.mem_of_mem_filter hmem)
  refine ⟨fun x hx => ?_, ?_, ?_⟩
  · have hmem : x ∈ allHandles d.lead ++ [html, head, body] :=
      List.append_subset.2 ⟨List.subset_append_left .., by simp⟩ hx
    have hne : x ≠ head ∧ x ≠ body := (List.mem_append.1 hx).elim (fun hx => (hlead x hx).2)
      fun hx => List.mem_singleton.1 hx ▸ ⟨hhtmlHead, hhtmlBody⟩
    exact hsorts.node_eq ⟨ho.ne_root hroot hmem, hne⟩ (.inl (ho.not_mem_top htop hmem))
  · refine node_ext ((hsorts.content head).trans (by rw [content, ho.nodeHead]))
      ((hparent head (by simp)).trans (by rw [parent?, ho.nodeHead])) ?_
    rw [← children, hsorts.inHead, children, ho.nodeHead]
    exact List.filter_congr fun x hx => (ho.levels htop hx).2.1
  · refine node_ext ((hsorts.content body).trans (by rw [content, ho.nodeBody]))
      ((hparent body (by simp)).trans (by rw [parent?, ho.nodeBody])) ?_
    rw [← children, hsorts.inBody, children, ho.nodeBody]
    exact List.filter_congr fun x hx => (ho.levels htop hx).2.2

/-- **The sorted page is put below the root.** -/
theorem promoted {e' : Document} (hsorts : Sorts e e' head body (d.children root)) :
    Promoted d (e'.append root html) html head body := by
  obtain ⟨⟨hhtmlHead, hhtmlBody, -⟩, hlead⟩ := ho.ne
  obtain ⟨hkept, hnewHead, hnewBody⟩ := ho.node_new hroot htop hsorts
  obtain ⟨hstays, htoHead, htoBody⟩ := ho.node_old htop hsorts
  have hnewRoot : ∀ x ∈ [html, head, body], x ≠ root := fun x hx =>
    ho.ne_root hroot (List.mem_append_right _ hx)
  have hhtml : e'.node html = e.node html := hkept html (by simp)
  obtain ⟨hsize, hnodeRoot, hnodeHtml, hframe⟩ := append_free (d := e') (p := root) (h := html)
    (by rw [hhtml, ho.nodeHtml])
    (hsorts.size ▸ hroot.trans_le (ho.fresh.size ▸ Nat.le_add_right _ _))
    (hsorts.size ▸ ho.fresh.lt (by simp)) (hnewRoot html (by simp)).symm
  have hframeTop : ∀ x ∈ d.children root, (e'.append root html).node x = e'.node x := fun x hx =>
    hframe x (htop x hx).2.1 (ho.ne_of_lt (htop x hx).1).1
  refine ⟨?_, ?_, ?_, ?_, ?_, fun x hx hxroot hx' => ?_, fun x hx => ?_, fun x hx => ?_⟩
  · refine ho.front.frame (by rw [hsize, hsorts.size]) fun x hx => ?_
    rw [hframe x (ho.ne_root hroot (List.mem_append_left _ hx)) (hlead x hx).1,
      hkept x (List.mem_append_left _ hx)]
  · rw [hnodeRoot, ho.children_root htop hsorts]
    refine node_ext ((hsorts.content root).trans (by rw [content, ho.nodeRoot])) ?_ rfl
    have hnot : ∀ p : Handle → Bool, root ∉ (d.children root).filter p := fun p hmem =>
      (htop root (List.mem_of_mem_filter hmem)).2.1 rfl
    rw [← parent?, hsorts.parent, if_neg (hnot _), if_neg (hnot _), parent?, ho.nodeRoot]
  · rw [hnodeHtml, hhtml, ho.nodeHtml]
  · rw [hframe head (hnewRoot head (by simp)) hhtmlHead.symm, hnewHead]
  · rw [hframe body (hnewRoot body (by simp)) hhtmlBody.symm, hnewBody]
  · rw [hframe x hxroot (ho.ne_of_lt hx).1, hstays x hx hxroot hx']
  · rw [hframeTop x (List.mem_of_mem_filter hx), htoHead x hx]
  · rw [hframeTop x (List.mem_of_mem_filter hx), htoBody x hx]

end Opened

/-- **Promotion builds a page around what stands at the top.** -/
theorem promote_promoted (hroot : root < d.size)
    (htop : ∀ x ∈ d.children root, x < d.size ∧ x ≠ root ∧ d.parent? x = some root)
    (hnodup : (d.children root).Nodup) :
    ∃ html body : Handle, Fresh d d.promote.1 (allHandles d.lead ++ [html, d.promote.2, body]) ∧
      Promoted d d.promote.1 html d.promote.2 body := by
  obtain ⟨e, html, head, body, hpage, ho⟩ := exists_opened hroot
  have hsorts := ho.sorts hroot htop hnodup
  have heq : d.promote =
      (((d.children root).foldl (sortInto head body) e).append root html, head) := by
    rw [promote, hpage]
  have hsize : (((d.children root).foldl (sortInto head body) e).append root html).size =
      e.size := by
    rw [append, size_link, size_detach, hsorts.size]
  rw [heq]
  exact ⟨html, body, ⟨ho.fresh.handles, hsize.trans ho.fresh.size⟩, ho.promoted hroot htop hsorts⟩

end Document
end Markup
end HtmlCompose
