/-
# Putting nodes in the place of a node

The nodes that come into the place of a node are moved before it one after another, each from
wherever it stands by then: another list of children, the very list that is being filled, before
or behind the node, or below the node.  A node that is mentioned again is moved again, so that it
ends where its last mention puts it, and a mention of the replaced node is passed over.
`arrivals` are the nodes in the order that results.

One move is told in full by `WellFormed.gathered_insertBefore`, and all moves together are one
`Gathered`, by induction on the mentions (`WellFormed.gathered_foldl`).  For the list that is
filled, the induction is about what stands before and behind the node: a move takes its node out
of both and puts it at the end of the former, and the moves that follow do the same.
-/
import HtmlCompose.Proofs.Markup.Insertion

namespace HtmlCompose
namespace Markup
namespace Document

variable {d d' : Document} {h p : Handle}

/-- The nodes that come into the place of a node: all that are mentioned but itself, each once and
in the order of the last mentions. -/
def arrivals (h : Handle) (mentioned : List Handle) : List Handle :=
  (mentioned.filter (· != h)).dedup

/-- The node that is replaced does not arrive in its own place. -/
theorem arrivals_cons_self (h : Handle) (rs : List Handle) :
    arrivals h (h :: rs) = arrivals h rs := by
  rw [arrivals, List.filter_cons_of_neg (by simp), arrivals]

/-- A node mentioned first arrives there unless it is mentioned again. -/
theorem arrivals_cons {r : Handle} (hr : h ≠ r) (rs : List Handle) :
    arrivals h (r :: rs) = if r ∈ arrivals h rs then arrivals h rs else r :: arrivals h rs := by
  rw [arrivals, List.filter_cons_of_pos (by simpa using hr.symm)]
  split
  · next hmem => rw [List.dedup_cons_of_mem (List.mem_dedup.1 hmem), arrivals]
  · next hmem => rw [List.dedup_cons_of_notMem fun h => hmem (List.mem_dedup.2 h), arrivals]

/-- What arrives is the first mentioned, or arrives for the others. -/
theorem mem_arrivals_cons {r : Handle} (hr : h ≠ r) {rs : List Handle} {x : Handle} :
    x ∈ arrivals h (r :: rs) ↔ x = r ∨ x ∈ arrivals h rs := by
  rw [arrivals_cons hr]
  split
  · next hmem => exact ⟨.inr, fun hx => hx.elim (fun heq => heq ▸ hmem) id⟩
  · exact List.mem_cons

/-- No mention makes a node arrive in its own place. -/
theorem not_mem_arrivals (h : Handle) (rs : List Handle) : h ∉ arrivals h rs := by
  simp [arrivals]

example : arrivals 4 [8, 2, 4, 5, 8] = [2, 5, 8] := by decide

/-- Leaving out one node and then others is leaving out all of them. -/
theorem filter_bne_filter {r : Handle} {moved all : List Handle}
    (hall : ∀ x, x ∈ all ↔ x = r ∨ x ∈ moved) (l : List Handle) :
    (l.filter (· != r)).filter (· ∉ moved) = l.filter (· ∉ all) := by
  rw [List.filter_filter]
  refine List.filter_congr fun x _ => ?_
  by_cases hx : x = r <;> simp [hall, hx]

/-- What one move has put before a node, and the others leave or move behind it. -/
theorem filter_append_arrivals {r : Handle} (hr : h ≠ r) (rs before : List Handle) :
    (before.filter (· != r) ++ [r]).filter (· ∉ arrivals h rs) ++ arrivals h rs =
      before.filter (· ∉ arrivals h (r :: rs)) ++ arrivals h (r :: rs) := by
  rw [List.filter_append, filter_bne_filter fun _ => mem_arrivals_cons hr, List.append_assoc,
    arrivals_cons hr]
  by_cases hmem : r ∈ arrivals h rs <;> simp [hmem]

/-- A node that is moved before another one is left out before and behind it, and put directly
before it. -/
theorem placeBefore_filter {r : Handle} (hr : h ≠ r) {before behind : List Handle}
    (hbefore : h ∉ before) :
    placeBefore h r ((before ++ h :: behind).filter (· != r)) =
      (before.filter (· != r) ++ [r]) ++ h :: behind.filter (· != r) := by
  rw [List.filter_append, List.filter_cons_of_pos (by simpa using hr),
    placeBefore_append fun hmem => hbefore (List.mem_of_mem_filter hmem), List.append_assoc,
    List.singleton_append]

/-- **The moves before one node add up.** -/
theorem WellFormed.gathered_foldl (hd : d.WellFormed) (hh : d.parent? h = some p)
    {before behind : List Handle} (hchildren : d.children p = before ++ h :: behind)
    (hbefore : h ∉ before) {rs : List Handle}
    (hrs : ∀ r ∈ rs, r < d.size ∧ (h ≠ r → ¬d.Below h r)) :
    (rs.foldl (fun d r => d.insertBefore h r) d).WellFormed ∧
      Gathered d (rs.foldl (fun d r => d.insertBefore h r) d) p (arrivals h rs)
        (before.filter (· ∉ arrivals h rs) ++ arrivals h rs ++
          h :: behind.filter (· ∉ arrivals h rs)) := by
  induction rs generalizing d before behind with
  | nil =>
    refine ⟨hd, rfl, fun _ => rfl, fun x => ?_, ?_, fun x _ => ?_⟩ <;> simp [arrivals, hchildren]
  | cons r rs ih =>
    obtain ⟨⟨hr, hbelow⟩, hrest⟩ := List.forall_mem_cons.1 hrs
    rw [List.foldl_cons]
    by_cases hhr : h = r
    · subst hhr
      rw [arrivals_cons_self, show d.insertBefore h h = d from if_pos rfl]
      exact ih hd hh hchildren hbefore hrest
    have hone := hd.gathered_insertBefore hh hr hhr (hbelow hhr)
    have hparent : ∀ x, x ≠ r → (d.insertBefore h r).parent? x = d.parent? x := fun x hx => by
      rw [hone.parent, if_neg (by simpa using hx)]
    have hthere := hone.there
    rw [hchildren, placeBefore_filter hhr hbefore] at hthere
    -- no move changes the way up from the replaced node
    have hallowed : ∀ s ∈ rs, s < (d.insertBefore h r).size ∧
        (h ≠ s → ¬(d.insertBefore h r).Below h s) := fun s hs =>
      ⟨hone.size ▸ (hrest s hs).1, fun hne hb =>
        (hrest s hs).2 hne (hb.of_relink hparent hhr (hbelow hhr))⟩
    obtain ⟨hwell, hmore⟩ := ih (hd.insertBefore hr hbelow) ((hparent h hhr).trans hh) hthere
      (by simp [hbefore, hhr]) hallowed
    have hall : ∀ x, x ∈ arrivals h (r :: rs) ↔ x = r ∨ x ∈ arrivals h rs := fun _ =>
      mem_arrivals_cons hhr
    refine ⟨hwell, hmore.size.trans hone.size, fun x => (hmore.content x).trans (hone.content x),
      fun x => ?_, ?_, fun x hx => ?_⟩
    · rw [hmore.parent, hone.parent]
      by_cases hx : x = r <;> simp [hall, hx]
    · rw [hmore.there, filter_append_arrivals hhr, filter_bne_filter hall]
    · rw [hmore.rest x hx, hone.rest x hx, filter_not_mem_singleton, filter_bne_filter hall]

/-- **Replacing a node moves the arrivals to its place**: they stand, in their order, between what
stood before it and what stood behind it, they are left out wherever they stood, and no other link
and no content changes. -/
theorem replaceWith_arrivals (hd : d.WellFormed) (hh : d.parent? h = some p) {rs : List Handle}
    (hrs : ∀ r ∈ rs, r < d.size ∧ (r ≠ h → r ≠ p ∧ ¬d.Below p r)) :
    ∃ before behind, d.children p = before ++ h :: behind ∧ h ∉ before ∧ h ∉ behind ∧
      (d.replaceWith h rs).children p = before.filter (· ∉ arrivals h rs) ++ arrivals h rs ++
        behind.filter (· ∉ arrivals h rs) ∧
      (∀ x, x ≠ p → (d.replaceWith h rs).children x = (d.children x).filter (· ∉ arrivals h rs)) ∧
      (∀ x, (d.replaceWith h rs).parent? x =
        if x = h then none else if x ∈ arrivals h rs then some p else d.parent? x) ∧
      (∀ x, (d.replaceWith h rs).content x = d.content x) ∧
      (d.replaceWith h rs).size = d.size := by
  obtain ⟨before, behind, hchildren⟩ := List.append_of_mem ((hd.linked p h).2 hh)
  have hnodup := hd.nodup p
  rw [hchildren, List.nodup_middle, List.nodup_cons, List.mem_append, not_or] at hnodup
  obtain ⟨hbefore, hbehind⟩ := hnodup.1
  have hallowed : ∀ r ∈ rs, r < d.size ∧ (h ≠ r → ¬d.Below h r) := fun r hr =>
    ⟨(hrs r hr).1, fun hne hb =>
      have hpr := (hrs r hr).2 hne.symm
      ((below_of_parent hh).1 hb).elim (fun heq => hpr.1 heq.symm) hpr.2⟩
  obtain ⟨hwell, hall⟩ := hd.gathered_foldl hh hchildren hbefore hallowed
  refine ⟨before, behind, hchildren, hbefore, hbehind, ?_, fun x hx => ?_, fun x => ?_, fun x => ?_,
    ?_⟩ <;> rw [replaceWith]
  · rw [hwell.children_detach, hall.there, filter_ne_append]
    · simp [hbefore, not_mem_arrivals]
    · simp [hbehind]
  · rw [hwell.children_detach, hall.rest x hx]
    refine List.filter_eq_self.2 fun c hc => ?_
    rw [bne_iff_ne]
    rintro rfl
    have hcx := (hd.linked x c).1 (List.mem_of_mem_filter hc)
    exact hx (Option.some.inj (hcx.symm.trans hh))
  · rw [hwell.parent?_detach, hall.parent]
  · rw [content_detach, hall.content]
  · rw [size_detach, hall.size]

/-- The hypotheses are satisfiable: an item is replaced by the items before and behind it, by a node
below it and by itself, one of them mentioned twice. -/
theorem replaceWith_arrivals_mixed :
    ∃ d, parse "<ul><li>a</li><li>b</li><li>c</li><li>d</li></ul>" = .ok d ∧ d.WellFormed ∧
      d.parent? 4 = some 1 ∧ d.children 1 = [2, 4, 6, 8] ∧
      (∀ r ∈ [8, 2, 4, 5, 8], r < d.size ∧ (r ≠ 4 → r ≠ 1 ∧ ¬d.Below 1 r)) ∧
      (d.replaceWith 4 [8, 2, 4, 5, 8]).children 1 = [2, 5, 8, 6] ∧
      (d.replaceWith 4 [8, 2, 4, 5, 8]).children 4 = [] ∧
      ∀ x, (d.replaceWith 4 [8, 2, 4, 5, 8]).parent? x =
        if x = 4 then none else if x ∈ [2, 5, 8] then some 1 else d.parent? x := by
  have hany : (parse "<ul><li>a</li><li>b</li><li>c</li><li>d</li></ul>").toOption.any (fun d =>
      decide (d.size = 10 ∧ d.parent? 0 = none ∧ d.parent? 1 = some 0 ∧ d.parent? 4 = some 1 ∧
        d.children 1 = [2, 4, 6, 8] ∧ d.children 4 = [5])) = true := by decide +kernel
  obtain ⟨d, hparse, hsize, htop, hup, hparent, hlist, hbelow⟩ := exists_ok_of_any hany
  have hd := wellFormed_of_parse hparse
  have hrs : ∀ r ∈ [8, 2, 4, 5, 8], r < d.size ∧ (r ≠ 4 → r ≠ 1 ∧ ¬d.Below 1 r) := by
    have hnot : ∀ r, r ≠ 0 → ¬d.Below 1 r := fun r hr hb =>
      ((below_of_parent hup).1 hb).elim (fun heq => hr heq.symm) (not_below_of_top htop r)
    simp [hsize, hnot]
  have harrivals : arrivals 4 [8, 2, 4, 5, 8] = [2, 5, 8] := by decide
  obtain ⟨before, behind, hchildren, hbefore, hbehind, hthere, hrest, hparents, -⟩ :=
    replaceWith_arrivals hd hparent hrs
  rw [harrivals] at hthere hrest hparents
  have hsplit : [2] ++ 4 :: [6, 8] = before ++ 4 :: behind := hlist.symm.trans hchildren
  obtain ⟨rfl, -, rfl⟩ := (List.append_cons_inj_of_notMem (by decide) (by decide)).1 hsplit
  refine ⟨d, hparse, hd, hparent, hlist, hrs, hthere, ?_, hparents⟩
  rw [hrest 4 (by decide), hbelow]
  rfl

end Document
end Markup
end HtmlCompose
