/-
# Lists of head assets

Assets go from list to list before they reach a page, and every list drops what it holds
already.  What a list keeps of what is pushed onto it, one by one or as another list:

| of an asset | kept |
| --- | --- |
| its identity | always: it is in the list afterwards (`hasKey_extend`) |
| with an identity | once (`Distinct.extend`) |
| without an identity | as often as it comes (`count_extend`) |
| that needs another one before it | behind that one (`Led.extend`) |

`additions_eq` is the last step: what a list without repetitions adds to a head are the
trees of all assets whose identity the head does not have yet.
-/
import HtmlCompose.Head.Page
import Mathlib

namespace HtmlCompose
namespace Head

open Markup

/-- The trees that the markup of an asset is read as. -/
def Asset.trees (a : Asset) : Forest := (parse a.markup).toOption.getD []

namespace Assets

/-- The trees of all assets, one after another. -/
def trees (l : Assets) : Forest := l.flatMap Asset.trees

/-- No identity is there twice. -/
def Distinct (l : Assets) : Prop := l.Pairwise fun a b => a.key = b.key → a.key = .unkeyed

/-- Every asset of a kind stands behind one with a key. -/
def Led (key : AssetKey) (kind : Asset → Prop) (l : Assets) : Prop :=
  ∀ before a after, l = before ++ a :: after → kind a → hasKey before key = true

instance (l : Assets) : Decidable l.Distinct :=
  inferInstanceAs (Decidable (List.Pairwise _ _))

variable {l others : Assets} {a : Asset} {key : AssetKey} {kind : Asset → Prop}

/-- A list has an identity if one of its assets has it. -/
theorem hasKey_iff : l.hasKey key = true ↔ ∃ a ∈ l, a.key = key := by
  simp [hasKey]

/-- Two lists together have the identities of both. -/
theorem hasKey_append : hasKey (l ++ others) key = (l.hasKey key || others.hasKey key) :=
  List.any_append

/-- The trees of two lists are those of the first, then those of the second. -/
theorem trees_append : trees (l ++ others) = l.trees ++ others.trees := List.flatMap_append

/-- The empty list has no identity twice. -/
theorem distinct_nil : Distinct [] := .nil

/-- The empty list has no asset that lacks another before it. -/
theorem led_nil : Led key kind [] := fun before a after h => by simp at h

/-! ### Pushing -/

/-- An asset is put at the end, or its identity is there already. -/
theorem push_cases (l : Assets) (a : Asset) :
    (push l a = l ++ [a] ∧ (a.key = .unkeyed ∨ l.hasKey a.key = false)) ∨
      (push l a = l ∧ a.key ≠ .unkeyed ∧ l.hasKey a.key = true) := by
  unfold push accepts
  by_cases hkey : a.key = .unkeyed
  · simp [hkey]
  · rcases hhas : l.hasKey a.key <;> simp [hkey]

/-- A pushed asset's identity is in the list afterwards, as are those of before. -/
theorem hasKey_push : (push l a).hasKey key = (l.hasKey key || a.key == key) := by
  rcases push_cases l a with ⟨hpush, -⟩ | ⟨hpush, -, hhas⟩ <;> rw [hpush]
  · rw [hasKey_append]
    simp [hasKey]
  · by_cases h : a.key = key
    · rw [← h, hhas, Bool.true_or]
    · rw [beq_false_of_ne h, Bool.or_false]

/-- Pushing brings no asset but the pushed one. -/
theorem mem_push {b : Asset} (h : b ∈ push l a) : b ∈ l ∨ b = a := by
  rcases push_cases l a with ⟨hpush, -⟩ | ⟨hpush, -⟩ <;> rw [hpush] at h
  · simpa using h
  · exact .inl h

/-- **Pushing leaves every identity in the list once.** -/
theorem Distinct.push (h : l.Distinct) (a : Asset) : (push l a).Distinct := by
  rcases push_cases l a with ⟨hpush, hnew⟩ | ⟨hpush, -⟩ <;> rw [hpush]
  · refine List.pairwise_append.2 ⟨h, List.pairwise_singleton _ a, fun b hb c hc hbc => ?_⟩
    obtain rfl := List.mem_singleton.1 hc
    refine hnew.elim (fun hkey => hbc.trans hkey) fun hhas => ?_
    rw [hasKey_iff.2 ⟨b, hb, hbc⟩] at hhas
    cases hhas
  · exact h

/-- Pushing loses no tree that comes from assets without identity only. -/
theorem count_push (p : Tree → Bool) (ha : a.key ≠ .unkeyed → a.trees.countP p = 0) :
    (push l a).trees.countP p = l.trees.countP p + a.trees.countP p := by
  rcases push_cases l a with ⟨hpush, -⟩ | ⟨hpush, hkey, -⟩ <;> rw [hpush]
  · rw [trees_append, List.countP_append]
    simp [trees]
  · rw [ha hkey, Nat.add_zero]

/-- An asset may be pushed once the one that it needs is in the list. -/
theorem Led.push (h : l.Led key kind) (ha : kind a → l.hasKey key = true) :
    (push l a).Led key kind := by
  rcases push_cases l a with ⟨hpush, -⟩ | ⟨hpush, -⟩ <;> rw [hpush]
  · intro before b after heq hb
    rcases List.eq_nil_or_concat after with rfl | ⟨init, c, rfl⟩
    · obtain ⟨rfl, hab⟩ := List.append_inj' heq rfl
      obtain rfl := List.singleton_inj.1 hab
      exact ha hb
    · rw [List.concat_eq_append, ← List.cons_append, ← List.append_assoc] at heq
      exact h before b init (List.append_inj_left' heq rfl) hb
  · exact h

/-! ### Extending -/

/-- A list is extended by its first asset, then by the others. -/
theorem extend_cons : extend l (a :: others) = (push l a).extend others := rfl

/-- Extending by two lists together is extending by one after the other. -/
theorem extend_append (l others more : Assets) :
    extend l (others ++ more) = (extend l others).extend more := List.foldl_append

/-- **Extending gives a list the identities of the other one**, and no more. -/
theorem hasKey_extend : (extend l others).hasKey key = (l.hasKey key || others.hasKey key) := by
  induction others generalizing l with
  | nil => exact (Bool.or_false _).symm
  | cons a others ih => rw [extend_cons, ih, hasKey_push, Bool.or_assoc]; rfl

/-- Every asset of an extended list is from one of the two lists. -/
theorem mem_extend {b : Asset} (h : b ∈ extend l others) : b ∈ l ∨ b ∈ others := by
  induction others generalizing l with
  | nil => exact .inl h
  | cons a others ih =>
    rcases ih h with h | h
    · rcases mem_push h with h | rfl
      · exact .inl h
      · exact .inr List.mem_cons_self
    · exact .inr (List.mem_cons_of_mem a h)

/-- Extending leaves every identity in the list once. -/
theorem Distinct.extend (h : l.Distinct) (others : Assets) : (extend l others).Distinct := by
  induction others generalizing l with
  | nil => exact h
  | cons a others ih => exact ih (h.push a)

/-- Of trees that come from assets without identity only, none is lost. -/
theorem count_extend (p : Tree → Bool)
    (hothers : ∀ a ∈ others, a.key ≠ .unkeyed → a.trees.countP p = 0) :
    (extend l others).trees.countP p = l.trees.countP p + others.trees.countP p := by
  induction others generalizing l with
  | nil => rfl
  | cons a others ih =>
    obtain ⟨ha, hrest⟩ := List.forall_mem_cons.1 hothers
    rw [extend_cons, ih hrest, count_push p ha, trees, trees, trees, List.flatMap_cons,
      List.countP_append, Nat.add_assoc]

/-- Where both lists have the assets of a kind behind those they need, so has the extended one. -/
theorem Led.extend (h : l.Led key kind) (hothers : others.Led key kind) :
    (extend l others).Led key kind := by
  -- what leads an asset may be in the list, or have come from the others before it
  have hkey : ∀ before a after, others = before ++ a :: after → kind a →
      (l.hasKey key || hasKey before key) = true := fun before a after heq ha => by
    rw [hothers before a after heq ha, Bool.or_true]
  clear hothers
  induction others generalizing l with
  | nil => exact h
  | cons a others ih =>
    refine ih (h.push fun ha => by simpa [hasKey] using hkey [] a others rfl ha) ?_
    intro before b after heq hb
    rw [hasKey_push, Bool.or_assoc]
    exact hkey (a :: before) b after (by rw [heq, List.cons_append]) hb

/-! ### First come, first kept -/

/-- The first asset of each identity, and all without one, in order. -/
def firsts : Assets → Assets
  | [] => []
  | a :: l => a :: (firsts l).filter fun b => b.key == .unkeyed || b.key != a.key

/-- A list with one more asset accepts the same ones, but those of its identity. -/
theorem accepts_concat (l : Assets) (a b : Asset) :
    accepts (l ++ [a]) b = (accepts l b && (b.key == .unkeyed || b.key != a.key)) := by
  have hsingle : hasKey [a] b.key = (b.key == a.key) := by
    rw [hasKey, List.any_cons, List.any_nil, Bool.or_false, BEq.comm]
  rw [accepts, accepts, hasKey_append, hsingle, bne]
  cases b.key == .unkeyed <;> cases l.hasKey b.key <;> cases b.key == a.key <;> rfl

/-- A list keeps the first asset of each identity that it does not have yet. -/
theorem extend_eq_append (l others : Assets) :
    extend l others = l ++ (firsts others).filter (accepts l) := by
  induction others generalizing l with
  | nil => exact (List.append_nil l).symm
  | cons a others ih =>
    rw [extend_cons, ih, firsts]
    rcases push_cases l a with ⟨hpush, hnew⟩ | ⟨hpush, hkey, hhas⟩ <;> rw [hpush]
    · have ha : accepts l a = true := by
        rcases hnew with hkey | hhas
        · simp [accepts, hkey]
        · simp [accepts, hhas]
      rw [List.filter_cons_of_pos ha, List.filter_filter, List.append_assoc, List.singleton_append]
      exact congrArg (l ++ a :: ·) (List.filter_congr fun b _ => accepts_concat l a b)
    · have ha : accepts l a = false := by simp [accepts, hkey, hhas]
      rw [List.filter_cons_of_neg (by simp [ha]), List.filter_filter]
      refine congrArg (l ++ ·) (List.filter_congr fun b _ => ?_)
      -- what has the identity of the asset that is left out is left out as well
      by_cases hab : b.key = a.key
      · rw [accepts, hab, hhas, Bool.not_true, Bool.or_false, bne_self_eq_false, Bool.or_false,
          Bool.and_self]
      · rw [bne_iff_ne.2 hab, Bool.or_true, Bool.and_true]

/-- **Of assets that come one after another, the first of each identity are kept.** -/
theorem extend_nil (l : Assets) : extend [] l = firsts l := by
  rw [extend_eq_append, List.nil_append, List.filter_eq_self]
  intro a _
  rw [accepts, hasKey, List.any_nil, Bool.not_false, Bool.or_true]

end Assets

/-! ### Adding to a head -/

/-- An asset that a head with some keys takes. -/
def isFresh (present : List AssetKey) (a : Asset) : Bool :=
  a.key == .unkeyed || !present.contains a.key

/-- A head takes all trees that come from assets without identity only. -/
theorem count_fresh (p : Tree → Bool) (present : List AssetKey) {l : Assets}
    (hl : ∀ a ∈ l, a.key ≠ .unkeyed → a.trees.countP p = 0) :
    (Assets.trees (l.filter (isFresh present))).countP p = l.trees.countP p := by
  induction l with
  | nil => rfl
  | cons a l ih =>
    obtain ⟨ha, hrest⟩ := List.forall_mem_cons.1 hl
    have hcons : Assets.trees (a :: l) = a.trees ++ Assets.trees l := rfl
    rw [List.filter_cons, hcons, List.countP_append]
    split
    · have hkept : Assets.trees (a :: l.filter (isFresh present)) =
          a.trees ++ Assets.trees (l.filter (isFresh present)) := rfl
      rw [hkept, List.countP_append, ih hrest]
    · next hfresh =>
      have hkey : a.key ≠ .unkeyed := fun hkey => hfresh (by simp [isFresh, hkey])
      rw [ha hkey, ih hrest, Nat.zero_add]

/-- **A head takes every asset whose identity it does not have.** -/
theorem additions_eq {l : Assets} (hl : l.Distinct) (present : List AssetKey)
    (h : (additions present l).2 = none) :
    (additions present l).1 = Assets.trees (l.filter (isFresh present)) := by
  induction l generalizing present with
  | nil => rfl
  | cons a rest ih =>
    obtain ⟨ha, hrest⟩ := List.pairwise_cons.1 hl
    unfold additions at h ⊢
    by_cases hskip : (a.key != .unkeyed && present.contains a.key) = true
    · have hfresh : isFresh present a = false := by simpa [isFresh] using hskip
      rw [if_pos hskip] at h ⊢
      rw [ih hrest present h, List.filter_cons_of_neg (by simp [hfresh])]
    · have hfresh : isFresh present a = true := by
        rw [isFresh]
        rw [Bool.not_eq_true, Bool.and_eq_false_iff] at hskip
        simpa using hskip
      have hsame : rest.filter (isFresh (a.key :: present)) = rest.filter (isFresh present) := by
        refine List.filter_congr fun b hb => ?_
        by_cases hab : a.key = b.key
        · simp [isFresh, ← hab, ha b hb hab]
        · simp [isFresh, Ne.symm hab]
      rw [if_neg hskip] at h ⊢
      rcases hparse : parse a.markup with fault | new <;> rw [hparse] at h
      · cases h
      · have hnew : a.trees = new := by rw [Asset.trees, hparse]; rfl
        rw [List.filter_cons_of_pos hfresh, Assets.trees, List.flatMap_cons, hnew, ← Assets.trees,
          ← hsame, ← ih hrest (a.key :: present) h]

end Head
end HtmlCompose
