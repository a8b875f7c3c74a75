/-
# Where the head of a page comes from

A page gets its head in one of three ways, and what stands in it before any asset is
added depends on which one: what the head that is there holds, nothing, or what the page
has at its top that belongs into a head (`residents`).  Assets then come behind these,
those left out whose identity is among them (`childrenOf?_merge`).  So where no identity is
there twice before, none is there twice afterwards (`count_identity`).

Everything rests on one fact about the first element of a name: when what is below it
is changed, it is still the first one, and then it holds what it has been changed to
(`childrenOf?_modifyFirst?`).
-/
import HtmlCompose.Proofs.Head.Assets

namespace HtmlCompose
namespace Head

open Markup

variable {name other : String} {change : Forest → Forest} {f f' kids : Forest}

/-! ### The first element of a name -/

@[simp] theorem childrenOf?_nil (name : String) : childrenOf? [] name = none := rfl

/-- The first element of a name is the first tree, or in it, or in the trees behind it. -/
theorem childrenOf?_cons (c : Content) (kids ts : Forest) (name : String) :
    childrenOf? (.node c kids :: ts) name =
      if c.element?.any (·.is name) then some kids
      else (childrenOf? kids name).or (childrenOf? ts name) := by
  have hfirst : (Markup.Tree.node c kids).isElement name = c.element?.any (·.is name) := rfl
  rw [childrenOf?, Forest.find?, Forest.preorder, Tree.preorder, List.cons_append,
    List.find?_cons, hfirst]
  split
  · next h => rw [if_pos h]; rfl
  · next h =>
    rw [if_neg (by simp [h]), List.find?_append, Option.map_or]
    rfl

/-- The first element of a name in two rows is that of the first row, or else that of the second. -/
theorem childrenOf?_append (f g : Forest) (name : String) :
    childrenOf? (f ++ g) name = (childrenOf? f name).or (childrenOf? g name) := by
  induction f with
  | nil => rfl
  | cons t f ih =>
    obtain ⟨c, kids⟩ := t
    rw [List.cons_append, childrenOf?_cons, childrenOf?_cons, ih]
    split
    · rfl
    · rw [Option.or_assoc]

/-- Leaving out trees brings no element of a name. -/
theorem childrenOf?_filter_eq_none (p : Markup.Tree → Bool) (h : childrenOf? f name = none) :
    childrenOf? (f.filter p) name = none := by
  induction f with
  | nil => rfl
  | cons t f ih =>
    obtain ⟨c, kids⟩ := t
    rw [← List.singleton_append, childrenOf?_append, Option.or_eq_none_iff] at h
    rw [List.filter_cons]
    split
    · rw [← List.singleton_append, childrenOf?_append, h.1, ih h.2]; rfl
    · exact ih h.2

mutual
/-- What is below the first element of a name in a tree is changed, if there is one. -/
theorem childrenOf?_modifyTree? (t : Markup.Tree) :
    (modifyTree? name change t).map (fun t => childrenOf? [t] name) =
      (childrenOf? [t] name).map fun kids => some (change kids) := by
  obtain ⟨c, kids⟩ := t
  rw [modifyTree?, childrenOf?_cons]
  by_cases hc : c.element?.any (·.is name) = true
  · simp [hc, childrenOf?_cons]
  · have ih := childrenOf?_modifyFirst? kids
    simp only [hc, Bool.false_eq_true, if_false, childrenOf?_nil, Option.or_none, Option.map_map,
      Function.comp_def, childrenOf?_cons] at ih ⊢
    exact ih

/-- **What is below the first element of a name is changed, if there is one.** -/
theorem childrenOf?_modifyFirst? (f : Forest) :
    (modifyFirst? name change f).map (childrenOf? · name) =
      (childrenOf? f name).map fun kids => some (change kids) := by
  match f with
  | [] => rfl
  | t :: rest =>
    have hsplit : ∀ (u : Markup.Tree) (us : Forest),
        childrenOf? (u :: us) name = (childrenOf? [u] name).or (childrenOf? us name) :=
      fun u us => childrenOf?_append [u] us name
    have ht := childrenOf?_modifyTree? t
    have hrest := childrenOf?_modifyFirst? rest
    rw [modifyFirst?, hsplit]
    rcases hmod : modifyTree? name change t with _ | t' <;> rw [hmod] at ht <;>
      rcases hfirst : childrenOf? [t] name with _ | found <;> rw [hfirst] at ht
    · rcases hmods : modifyFirst? name change rest with _ | rest' <;> rw [hmods] at hrest
      · exact hrest
      · rw [Option.none_or, ← hrest]
        simp only [Option.map_some, hsplit t rest', hfirst, Option.none_or]
    · cases ht
    · cases ht
    · have ht' : childrenOf? [t'] name = some (change found) := Option.some.inj ht
      simp only [Option.map_some, hsplit t' rest, ht', Option.some_or]
end

mutual
/-- A change brings the first element of another name to a tree that has had none. -/
theorem childrenOf?_modifyTree?_new (hchange : ∀ below, childrenOf? (change below) other = some kids)
    {t t' : Markup.Tree} (hnone : childrenOf? [t] other = none)
    (h : modifyTree? name change t = some t') : childrenOf? [t'] other = some kids := by
  obtain ⟨c, below⟩ := t
  rw [childrenOf?_cons] at hnone
  split at hnone
  · cases hnone
  next hc =>
    rw [Option.or_eq_none_iff] at hnone
    rw [modifyTree?] at h
    split at h
    · obtain rfl := Option.some.inj h
      rw [childrenOf?_cons, if_neg hc, hchange, Option.some_or]
    · obtain ⟨below', hbelow, rfl⟩ := Option.map_eq_some_iff.1 h
      rw [childrenOf?_cons, if_neg hc,
        childrenOf?_modifyFirst?_new hchange hnone.1 hbelow, Option.some_or]

/-- A change brings the first element of another name to trees that have had none. -/
theorem childrenOf?_modifyFirst?_new {f f' : Forest}
    (hchange : ∀ below, childrenOf? (change below) other = some kids)
    (hnone : childrenOf? f other = none) (h : modifyFirst? name change f = some f') :
    childrenOf? f' other = some kids := by
  match f with
  | [] => cases h
  | t :: rest =>
    rw [← List.singleton_append, childrenOf?_append, Option.or_eq_none_iff] at hnone
    rw [modifyFirst?] at h
    split at h
    · next t' ht =>
      obtain rfl := Option.some.inj h
      rw [← List.singleton_append, childrenOf?_append,
        childrenOf?_modifyTree?_new hchange hnone.1 ht, Option.some_or]
    · obtain ⟨rest', hrest, rfl⟩ := Option.map_eq_some_iff.1 h
      rw [← List.singleton_append, childrenOf?_append, hnone.1, Option.none_or,
        childrenOf?_modifyFirst?_new hchange hnone.2 hrest]
end

/-! ### The head before and after assets -/

/-- What stands in the head of a page before assets are added. -/
def residents (f : Forest) : Forest :=
  match childrenOf? f "head" with
  | some kids => kids
  | none => if (childrenOf? f "html").isSome then [] else f.filter isHeadLevel

/-- What belongs into a head is no declaration. -/
theorem isDoctype_of_isHeadLevel {t : Markup.Tree} (h : isHeadLevel t = true) :
    t.content.isDoctype = false := by
  obtain ⟨c, kids⟩ := t
  cases c <;> first | rfl | cases h

/-- The head of a whole page holds what stood at the top and belongs there. -/
theorem childrenOf?_promote (h : childrenOf? f "head" = none) :
    childrenOf? (promote f) "head" = some (f.filter isHeadLevel) := by
  have hfilter : (f.filter (!·.content.isDoctype)).filter isHeadLevel = f.filter isHeadLevel := by
    rw [List.filter_filter]
    refine List.filter_congr fun t _ => ?_
    rcases ht : isHeadLevel t
    · rfl
    · rw [isDoctype_of_isHeadLevel ht]; rfl
  have hdoctypes : childrenOf? (if (f.filter (·.content.isDoctype)).isEmpty = true then
      [.node (.doctype "<!DOCTYPE html>") []] else f.filter (·.content.isDoctype)) "head" =
        none := by
    split
    · rfl
    · exact childrenOf?_filter_eq_none _ h
  rw [promote, childrenOf?_append, hdoctypes, Option.none_or, hfilter]
  rfl

/-- **A page with a head has its residents in it.** -/
theorem childrenOf?_ensureHead (f : Forest) :
    childrenOf? (ensureHead f) "head" = some (residents f) := by
  have hsome : (f.find? "head").isSome = (childrenOf? f "head").isSome :=
    Option.isSome_map.symm
  rw [ensureHead, residents, hsome]
  rcases hhead : childrenOf? f "head" with _ | kids
  · have hmod : (modifyFirst? "html" (Tree.ofElement ⟨"head", []⟩ [] :: ·) f).map
        (childrenOf? · "html") = _ := childrenOf?_modifyFirst? f
    simp only [Option.isSome_none, Bool.false_eq_true, if_false]
    rcases hpage : modifyFirst? "html" (Tree.ofElement ⟨"head", []⟩ [] :: ·) f with _ | page <;>
      rw [hpage] at hmod
    · rcases hhtml : childrenOf? f "html" with _ | below
      · exact childrenOf?_promote hhead
      · rw [hhtml] at hmod
        cases hmod
    · rcases hhtml : childrenOf? f "html" with _ | below
      · rw [hhtml] at hmod
        cases hmod
      · exact childrenOf?_modifyFirst?_new (fun _ => rfl) hhead hpage
  · exact hhead

/-- **Assets come behind the residents of the head, each identity once.** -/
theorem childrenOf?_merge {assets : Assets} (hdistinct : assets.Distinct) (hne : assets ≠ [])
    (hfault : (merge f assets).2 = none) :
    childrenOf? (merge f assets).1 "head" =
      some (residents f ++
        Assets.trees (assets.filter (isFresh (presentKeys (residents f))))) := by
  rw [merge, if_neg (by simpa using hne)] at hfault ⊢
  simp only [childrenOf?_ensureHead, Option.getD_some] at hfault ⊢
  have hmod : (modifyFirst? "head" (· ++ (additions (presentKeys (residents f)) assets).1)
      (ensureHead f)).map (childrenOf? · "head") = _ := childrenOf?_modifyFirst? (ensureHead f)
  rw [childrenOf?_ensureHead, Option.map_some, Option.map_eq_some_iff] at hmod
  obtain ⟨page, hpage, hkids⟩ := hmod
  rw [hpage, Option.getD_some, hkids, additions_eq hdistinct _ hfault]

/-! ### One node of each identity -/

/-- The markup of an asset is read as one node with its identity. -/
def Asset.ReadsBack (a : Asset) : Prop := ∃ t, parse a.markup = .ok [t] ∧ AssetKey.of t = a.key

/-- Whether an asset reads back can be found out by parsing its markup. -/
theorem Asset.readsBack_iff {a : Asset} :
    a.ReadsBack ↔ (parse a.markup).toOption.map (·.map AssetKey.of) = some [a.key] := by
  rw [ReadsBack]
  rcases parse a.markup with fault | trees
  · simp [Except.toOption]
  · rcases trees with _ | ⟨t, _ | ⟨u, trees⟩⟩ <;> simp [Except.toOption]

instance (a : Asset) : Decidable a.ReadsBack := decidable_of_iff' _ Asset.readsBack_iff

/-- An asset that reads back has one tree, of its identity. -/
theorem Asset.ReadsBack.map_trees {a : Asset} (h : a.ReadsBack) :
    a.trees.map AssetKey.of = [a.key] := by
  obtain ⟨t, hparse, hkey⟩ := h
  rw [Asset.trees, hparse, ← hkey]
  rfl

variable {l : Assets} {key : AssetKey}

/-- The trees of assets that read back have the identities of the assets, in order. -/
theorem Assets.map_trees (h : ∀ a ∈ l, a.ReadsBack) : l.trees.map AssetKey.of = l.map (·.key) := by
  induction l with
  | nil => rfl
  | cons a l ih =>
    obtain ⟨ha, hl⟩ := List.forall_mem_cons.1 h
    rw [Assets.trees, List.flatMap_cons, List.map_append, ha.map_trees, List.map_cons, ← ih hl]
    rfl

/-- An identity that is in a list is there once. -/
theorem Assets.Distinct.count_key (hl : l.Distinct) (hkey : key ≠ .unkeyed)
    (hhas : l.hasKey key = true) : (l.map (·.key)).count key = 1 := by
  induction l with
  | nil => cases hhas
  | cons a l ih =>
    obtain ⟨ha, hrest⟩ := List.pairwise_cons.1 hl
    rw [List.map_cons, List.count_cons]
    by_cases heq : a.key = key
    · have hnone : key ∉ l.map (·.key) := fun hmem => by
        obtain ⟨b, hb, hbkey⟩ := List.mem_map.1 hmem
        exact hkey (heq ▸ ha b hb (heq.trans hbkey.symm))
      rw [List.count_eq_zero_of_not_mem hnone, heq, beq_self_eq_true, if_pos rfl]
    · have hhas' : Assets.hasKey l key = true := by simpa [Assets.hasKey, heq] using hhas
      rw [ih hrest hhas', beq_false_of_ne heq]
      rfl

/-- A tree of an identity is listed once in the keys. -/
theorem count_presentKeys (hkey : key ≠ .unkeyed) (f : Forest) :
    (presentKeys f).count key = (f.map AssetKey.of).count key :=
  List.count_filter (by simpa using hkey)

/-- **A head holds one node of each identity** among its assets, if these read back as they are and
its residents have no identity twice. -/
theorem count_identity (hl : l.Distinct) (hread : ∀ a ∈ l, a.ReadsBack)
    (hresidents : (presentKeys f).Nodup) (hkey : key ≠ .unkeyed) (hhas : l.hasKey key = true) :
    ((f ++ Assets.trees (l.filter (isFresh (presentKeys f)))).map AssetKey.of).count key = 1 := by
  rw [List.map_append, List.count_append, ← count_presentKeys hkey,
    Assets.map_trees fun a ha => hread a (List.mem_of_mem_filter ha)]
  by_cases hpresent : key ∈ presentKeys f
  · have hleft : key ∉ (l.filter (isFresh (presentKeys f))).map (·.key) := fun hmem => by
      obtain ⟨a, ha, rfl⟩ := List.mem_map.1 hmem
      have hfresh := (List.mem_filter.1 ha).2
      simp [isFresh, hkey, hpresent] at hfresh
    rw [List.count_eq_one_of_mem hresidents hpresent, List.count_eq_zero_of_not_mem hleft]
  · have hfresh : Assets.hasKey (l.filter (isFresh (presentKeys f))) key = true := by
      obtain ⟨a, ha, rfl⟩ := Assets.hasKey_iff.1 hhas
      exact Assets.hasKey_iff.2 ⟨a, List.mem_filter.2 ⟨ha, by simp [isFresh, hpresent]⟩, rfl⟩
    have hdistinct : Assets.Distinct (l.filter (isFresh (presentKeys f))) := hl.filter _
    rw [List.count_eq_zero_of_not_mem hpresent, hdistinct.count_key hkey hfresh]

end Head
end HtmlCompose
