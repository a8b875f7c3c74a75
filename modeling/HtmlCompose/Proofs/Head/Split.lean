/-
# What splitting keeps of a component's head

A component that becomes part of another page brings its head assets and the rest of its trees.
What is offered as an asset is what stands in its `head` and what belongs into a head in its
container, which is the first `body`, or else the first `html`, or else the top.  A tree is
represented by an asset of its identity, or, where it has none, of its own markup.

| a tree at the top that belongs into a head | is represented |
| --- | --- |
| beside no `body` and no `html`, however deep | always |
| otherwise | if a tree that is offered is the same asset |

That is exact (`represents_split`), and no such tree stays in the body either.  So what stands at
the top beside a `body` may be lost altogether; `split_lost` has examples.
-/
import HtmlCompose.Proofs.Head.Page
import HtmlCompose.Proofs.Markup.Parsed

namespace HtmlCompose
namespace Head

open Markup

/-! ### Assets that stand for trees -/

/-- An asset has the identity of a tree, or its markup if the tree has no identity. -/
def Asset.StandsFor (a : Asset) (t : Tree) : Prop :=
  a.key = .of t ∧ (a.key = .unkeyed → a.markup = t.serialize)

instance (a : Asset) (t : Tree) : Decidable (a.StandsFor t) :=
  inferInstanceAs (Decidable (_ ∧ _))

namespace Assets

/-- One of the assets stands for a tree. -/
def Represents (l : Assets) (t : Tree) : Prop := ∃ a ∈ l, a.StandsFor t

instance (l : Assets) (t : Tree) : Decidable (l.Represents t) :=
  inferInstanceAs (Decidable (∃ a ∈ l, _))

variable {l others : Assets} {a : Asset} {t : Tree}

/-- An asset that is not put at the end has one of its identity there to stand in for it. -/
theorem represents_push : Represents (push l a) t ↔ l.Represents t ∨ a.StandsFor t := by
  constructor
  · rintro ⟨b, hb, hstands⟩
    rcases mem_push hb with hb | rfl
    · exact .inl ⟨b, hb, hstands⟩
    · exact .inr hstands
  · rintro h
    rcases push_cases l a with ⟨hpush, -⟩ | ⟨hpush, hkeyed, hhas⟩ <;> rw [hpush]
    · rcases h with ⟨b, hb, hstands⟩ | hstands
      · exact ⟨b, List.mem_append_left _ hb, hstands⟩
      · exact ⟨a, List.mem_append_right _ List.mem_cons_self, hstands⟩
    · refine h.elim id fun hstands => ?_
      obtain ⟨b, hb, hkey⟩ := hasKey_iff.1 hhas
      exact ⟨b, hb, hkey.trans hstands.1, fun hnone => absurd (hkey.symm.trans hnone) hkeyed⟩

/-- **Lists keep what their assets stand for**, whichever of two assets of one identity is kept. -/
theorem represents_extend : Represents (extend l others) t ↔ l.Represents t ∨ others.Represents t := by
  induction others generalizing l with
  | nil => simp [extend, Represents]
  | cons a others ih =>
    rw [extend_cons, ih, represents_push, or_assoc]
    simp [Represents]

end Assets

/-! ### Splitting -/

/-- The trees that a component offers as assets. -/
def offered (f : Forest) : Forest :=
  ((childrenOf? f "head").getD []).filter (·.element?.isSome) ++ (container f).filter isHeadLevel

/-- What is offered stands in the head as an element, or in the container and belongs into a
head. -/
theorem mem_offered {f : Forest} {t : Tree} :
    t ∈ offered f ↔ (∃ head, childrenOf? f "head" = some head ∧ t ∈ head ∧ t.element?.isSome) ∨
      t ∈ container f ∧ isHeadLevel t := by
  rw [offered, List.mem_append, List.mem_filter, List.mem_filter]
  rcases childrenOf? f "head" with _ | head <;> simp

/-- **Splitting represents what is offered, and nothing else.**  A tree at the top that belongs into
a head is offered unless there is a `body` or an `html`, and is never part of the body. -/
theorem represents_split (f : Forest) :
    (∀ t, (split f).1.Represents t ↔ ∃ u, ((∃ head, childrenOf? f "head" = some head ∧ u ∈ head ∧
        u.element?.isSome) ∨ u ∈ container f ∧ isHeadLevel u) ∧ (Asset.of u).StandsFor t) ∧
      (childrenOf? f "body" = none → childrenOf? f "html" = none →
        ∀ t ∈ f, isHeadLevel t → (split f).1.Represents t) ∧
      ∀ t ∈ (split f).2, isHeadLevel t = false := by
  have hexact : ∀ t, (split f).1.Represents t ↔ ∃ u ∈ offered f, (Asset.of u).StandsFor t := by
    intro t
    show (Assets.extend [] ((offered f).map Asset.of)).Represents t ↔ _
    rw [Assets.represents_extend]
    simp [Assets.Represents]
  refine ⟨?_, ?_, ?_⟩
  · intro t
    simp only [hexact, mem_offered]
  · intro hbody hhtml t ht hlevel
    have htop : container f = f := by rw [container, hbody, hhtml]; rfl
    exact (hexact t).2 ⟨t, mem_offered.2 (.inr ⟨htop.symm ▸ ht, hlevel⟩), rfl, fun _ => rfl⟩
  · intro t ht
    have hbody : isBody t = true := (List.mem_filter.1 ht).2
    simpa using (Bool.and_eq_true_iff.1 hbody).2

/-- A component with a head between a link of the same identity and a meta without one. -/
def looseTemplate : String :=
  "<!DOCTYPE html><link href=\"a\" id=\"1\"><head><link href=\"a\" id=\"2\"></head>x<meta>"

/-- The hypotheses are satisfiable. -/
theorem represents_split_loose : ∃ f, parse looseTemplate = .ok f ∧
    childrenOf? f "body" = none ∧ childrenOf? f "html" = none ∧
    ∀ t ∈ f, isHeadLevel t → (split f).1.Represents t := by
  have hcheck : (parse looseTemplate).toOption.any (fun f =>
      decide (childrenOf? f "body" = none ∧ childrenOf? f "html" = none)) = true := by
    decide +kernel
  obtain ⟨f, hparse, hbody, hhtml⟩ := exists_ok_of_any hcheck
  exact ⟨f, hparse, hbody, hhtml, (represents_split f).2.1 hbody hhtml⟩

/-- A component loses a tree at its top that belongs into a head. -/
def LosesTop (source : String) : Prop :=
  ∃ f, parse source = .ok f ∧ ∃ t ∈ f, isHeadLevel t = true ∧ ¬(split f).1.Represents t

/-- Components that lose a link before a `body`, a meta before an `html`, and a style before a
`body` further down. -/
theorem split_lost : LosesTop "<link href=\"a.css\"><body><p>x</p></body>" ∧
    LosesTop "<meta charset=\"utf-8\"><html><p>x</p></html>" ∧
    LosesTop "<style>b</style><p><body></body></p>" := by
  refine ⟨?_, ?_, ?_⟩ <;> exact exists_ok_of_any (by decide +kernel)

end Head
end HtmlCompose
