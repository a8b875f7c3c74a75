/-
# Putting a node before another one

A node that is put before a reference leaves its old place first.  Whether there is a new place
is seen only then:

| the reference | the node |
| --- | --- |
| is the node itself | stays where it is |
| has a parent | is moved before the reference (`WellFormed.gathered_insertBefore`) |
| has no parent | is taken out of its old place (`insertBefore_unattached`) |

So putting a node before a reference without a parent does nothing exactly if the node has no
parent either.  All others lose the nodes above them, and what is below them comes along: a node
stays below another one unless the moved node is on the way between the two
(`WellFormed.below_detach_iff`).
-/
import HtmlCompose.Proofs.Markup.Parsed
import HtmlCompose.Proofs.Markup.Walks

namespace HtmlCompose
namespace Markup
namespace Document

variable {d d' : Document} {h p x a reference : Handle}

/-! ### A reference with a parent -/

/-- Nodes have been moved below a parent, whose children are then given, and nothing else has
happened. -/
structure Gathered (d d' : Document) (p : Handle) (moved there : List Handle) : Prop where
  size : d'.size = d.size
  content : ∀ x, d'.content x = d.content x
  parent : ∀ x, d'.parent? x = if x ∈ moved then some p else d.parent? x
  there : d'.children p = there
  rest : ∀ x, x ≠ p → d'.children x = (d.children x).filter (· ∉ moved)

/-- **A node is moved before a child of a node.**  It may have been a child of that node before. -/
theorem WellFormed.gathered_insertBefore (hd : d.WellFormed) (href : d.parent? reference = some p)
    (hh : h < d.size) (hne : reference ≠ h) (hbelow : ¬d.Below reference h) :
    Gathered d (d.insertBefore reference h) p [h]
      (placeBefore reference h ((d.children p).filter (· != h))) := by
  have hph : p ≠ h := fun heq => hbelow (heq ▸ .child href)
  have hparent : (d.detach h).parent? reference = some p := by
    rw [hd.parent?_detach, if_neg hne, href]
  have hp' : p < (d.detach h).size := by
    rw [size_detach]
    exact hd.parent_lt href
  have hh' : h < (d.detach h).size := by rwa [size_detach]
  rw [insertBefore_eq_move hne hparent]
  refine ⟨by rw [size_link, size_detach], fun x => ?_, fun x => ?_, ?_, fun x hx => ?_⟩
  · rw [content_link, content_detach]
  · rw [parent?_link hp' hh' hph, hd.parent?_detach]
    by_cases hx : x = h <;> simp [hx]
  · rw [children_link hp' hh' hph, if_pos rfl, hd.children_detach]
  · rw [children_link hp' hh' hph, if_neg hx, hd.children_detach, filter_not_mem_singleton]

/-! ### A reference without a parent -/

/-- In a document where a node has been taken out, the ways up from below that node end at it. -/
theorem WellFormed.eq_or_below_of_detach (hd : d.WellFormed) (hbelow : (d.detach h).Below x a)
    (hx : d.Below x h) : a = h ∨ d.Below a h := by
  have hfree : (d.detach h).parent? h = none := by rw [hd.parent?_detach, if_pos rfl]
  have hup : ∀ {y p : Handle}, (d.detach h).parent? y = some p → d.Below y h →
      p = h ∨ d.Below p h := by
    intro y p hp hy
    rw [hd.parent?_detach] at hp
    split at hp
    · cases hp
    · exact (below_of_parent hp).1 hy
  induction hbelow with
  | child hp => exact hup hp hx
  | up hp hbelow ih =>
    rcases hup hp hx with rfl | hp'
    · exact absurd hbelow (not_below_of_top hfree _)
    · exact ih hp'

/-- **A node stays below another one unless the node that is taken out is on the way.** -/
theorem WellFormed.below_detach_iff (hd : d.WellFormed) :
    (d.detach h).Below x a ↔ d.Below x a ∧ ¬((x = h ∨ d.Below x h) ∧ d.Below h a) := by
  constructor
  · refine fun hbelow => ⟨hbelow.of_detach hd, ?_⟩
    rintro ⟨rfl | hx, ha⟩
    · refine not_below_of_top ?_ a hbelow
      rw [hd.parent?_detach, if_pos rfl]
    · rcases hd.eq_or_below_of_detach hbelow hx with rfl | hah
      · exact (hd.ends a).not_below_self ha
      · exact (hd.ends h).not_below_self (ha.trans hah)
  · rintro ⟨hbelow, hnot⟩
    have hstep : ∀ {y p : Handle}, d.parent? y = some p → y ≠ h →
        (d.detach h).parent? y = some p := fun hp hy => by rw [hd.parent?_detach, if_neg hy, hp]
    induction hbelow with
    | child hp => exact .child (hstep hp fun heq => hnot ⟨.inl heq, heq ▸ .child hp⟩)
    | up hp ha ih =>
      refine .up (hstep hp fun heq => hnot ⟨.inl heq, heq ▸ .up hp ha⟩)
        (ih fun hon => hnot ⟨.inr ?_, hon.2⟩)
      exact (below_of_parent hp).2 hon.1

/-- **Putting a node before a reference without a parent takes it out of its place**, and does
nothing else.  It does nothing at all exactly if the node has no parent either. -/
theorem insertBefore_unattached (hd : d.Reachable) (href : d.parent? reference = none)
    (hne : h ≠ reference) :
    (∀ x, (d.insertBefore reference h).content x = d.content x ∧
      (d.insertBefore reference h).parent? x = (if x = h then none else d.parent? x) ∧
      (d.insertBefore reference h).children x = (d.children x).filter (· != h)) ∧
    ((∀ x, (d.insertBefore reference h).node x = d.node x) ↔ d.parent? h = none) ∧
    ∀ x a, (d.insertBefore reference h).Below x a ↔
      d.Below x a ∧ ¬((x = h ∨ d.Below x h) ∧ d.Below h a) := by
  have hwell := hd.wellFormed
  have hparent : (d.detach h).parent? reference = none := by
    rw [hwell.parent?_detach, if_neg hne.symm, href]
  rw [insertBefore_eq_detach hne.symm hparent]
  refine ⟨fun x => ⟨content_detach d h x, hwell.parent?_detach h x, hwell.children_detach h x⟩,
    ⟨fun hsame => ?_, fun hfree x => ?_⟩, fun x a => hwell.below_detach_iff⟩
  · have htop := hwell.parent?_detach h h
    rw [if_pos rfl, parent?, hsame] at htop
    exact htop
  · rw [detach_eq_self hfree]

/-- The hypotheses are satisfiable with a node that lies below the reference itself. -/
theorem insertBefore_unattached_inside : ∃ d : Document, parse "<p>x<b></b></p>" = .ok d ∧
    (d.detach 1).Reachable ∧ (d.detach 1).parent? 1 = none ∧ 2 ≠ 1 ∧
    (d.detach 1).children 1 = [2, 3] ∧ ((d.detach 1).insertBefore 1 2).children 1 = [3] ∧
    ∀ x a, ((d.detach 1).insertBefore 1 2).Below x a ↔
      (d.detach 1).Below x a ∧ ¬((x = 2 ∨ (d.detach 1).Below x 2) ∧ (d.detach 1).Below 2 a) := by
  have hany : (parse "<p>x<b></b></p>").toOption.any (fun d => decide (1 < d.size ∧
      (d.detach 1).parent? 1 = none ∧ (d.detach 1).children 1 = [2, 3])) = true := by
    decide +kernel
  obtain ⟨d, hparse, hsize, hfree, hchildren⟩ := exists_ok_of_any hany
  have hd : (d.detach 1).Reachable := .edited (e := .detach 1) (.parsed hparse) hsize
  obtain ⟨hlinks, -, hbelow⟩ := insertBefore_unattached hd hfree (h := 2) (by decide)
  refine ⟨d, hparse, hd, hfree, by decide, hchildren, ?_, hbelow⟩
  rw [(hlinks 1).2.2, hchildren]
  rfl

/-- A node of a parsed document is dropped from it when it is put before a new text. -/
theorem insertBefore_unattached_drops : ∃ d : Document,
    (parse "<p>x</p>").map (fun parsed => (parsed.create (.text "r")).1) = .ok d ∧ d.Reachable ∧
    d.parent? 3 = none ∧ d.isWithin 1 root = true ∧
    (d.insertBefore 3 1).isWithin 1 root = false ∧
    (d.insertBefore 3 1).parent? 1 ≠ d.parent? 1 ∧
    (d.insertBefore 3 1).children root ≠ d.children root := by
  have hany : ((parse "<p>x</p>").map fun parsed => (parsed.create (.text "r")).1).toOption.any
      (fun d => decide (d.parent? 3 = none ∧ d.isWithin 1 root = true ∧
        (d.insertBefore 3 1).isWithin 1 root = false ∧
        (d.insertBefore 3 1).parent? 1 ≠ d.parent? 1 ∧
        (d.insertBefore 3 1).children root ≠ d.children root)) = true := by decide +kernel
  obtain ⟨d, hcreate, hd⟩ := exists_ok_of_any hany
  refine ⟨d, hcreate, ?_, hd⟩
  rcases hparse : parse "<p>x</p>" with fault | parsed <;> rw [hparse] at hcreate <;> cases hcreate
  exact .edited (e := .create (.text "r")) (.parsed hparse) trivial

end Document
end Markup
end HtmlCompose
