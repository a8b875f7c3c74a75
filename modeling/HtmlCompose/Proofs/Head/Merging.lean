/-
# Merging assets one list after another

Merging a list of assets into a page and then a second one is merging once what the first list
becomes when the second is added to it (`merge_extend`).  Three things have to agree on what is
there already:

| what is left out | because its identity is |
| --- | --- |
| by a list that is extended | in the list |
| by a merge | in the head, or in the list before it |
| by a second merge | in the head, as the first merge has left it |

They agree as long as the markup of each asset is read as what the asset says it is
(`Asset.Faithful`): then the identities in a head after a merge are those before it with those
of the list (`mem_presentKeys_merge`).  And a head that is there is found again, so the second
merge adds behind what the first one has added (`modifyFirst?_comp`).
-/
import HtmlCompose.Proofs.Head.Page
import HtmlCompose.Proofs.Markup.Parsed

namespace HtmlCompose
namespace Head

open Markup

variable {name : String} {change more : Forest → Forest} {f : Forest} {l A B : Assets}
  {key : AssetKey}

/-! ### Changing the first element of a name twice -/

/-- Whether there is an element to change does not depend on the change. -/
theorem isSome_modifyTree? (t : Markup.Tree) :
    (modifyTree? name change t).isSome = (childrenOf? [t] name).isSome := by
  rw [← Option.isSome_map (f := fun t => childrenOf? [t] name), childrenOf?_modifyTree?,
    Option.isSome_map]

/-- Trees are changed if they have an element of the name. -/
theorem isSome_modifyFirst? (f : Forest) :
    (modifyFirst? name change f).isSome = (childrenOf? f name).isSome := by
  rw [← Option.isSome_map (f := fun f => childrenOf? f name), childrenOf?_modifyFirst?,
    Option.isSome_map]

mutual
/-- Changing what is below the first element in one tree, and then again, is one change. -/
theorem modifyTree?_comp (t : Markup.Tree) :
    (modifyTree? name change t).bind (modifyTree? name more) =
      modifyTree? name (more ∘ change) t := by
  obtain ⟨c, kids⟩ := t
  rw [modifyTree?, modifyTree?]
  by_cases hc : c.element?.any (·.is name) = true
  · rw [if_pos hc, if_pos hc, Option.bind_some, modifyTree?, if_pos hc]
    rfl
  · rw [if_neg hc, if_neg hc, ← modifyFirst?_comp kids, Option.bind_map, Option.map_bind]
    refine congrArg _ (funext fun below => ?_)
    rw [Function.comp_apply, modifyTree?, if_neg hc]
    rfl

/-- **Changing what is below the first element of a name, and then again, is one change.** -/
theorem modifyFirst?_comp (f : Forest) :
    (modifyFirst? name change f).bind (modifyFirst? name more) =
      modifyFirst? name (more ∘ change) f := by
  match f with
  | [] => rfl
  | t :: rest =>
    have ht := modifyTree?_comp t
    have hrest := modifyFirst?_comp rest
    rw [modifyFirst?, modifyFirst?]
    rcases hmod : modifyTree? name change t with _ | t' <;> rw [hmod] at ht
    · rw [← ht, Option.bind_none, ← hrest]
      dsimp only
      rw [Option.bind_map, Option.map_bind]
      refine congrArg _ (funext fun rest' => ?_)
      have hnone : modifyTree? name more t = none := by
        rw [← Option.not_isSome_iff_eq_none, isSome_modifyTree?, ← isSome_modifyTree? t, hmod]
        simp
      rw [Function.comp_apply, modifyFirst?, hnone]
      rfl
    · have hsome : (modifyTree? name (more ∘ change) t).isSome = true := by
        rw [isSome_modifyTree?, ← isSome_modifyTree? t, hmod, Option.isSome_some]
      obtain ⟨t'', ht''⟩ := Option.isSome_iff_exists.1 hsome
      rw [Option.bind_some] at ht
      rw [Option.bind_some, modifyFirst?, ht, ht'']
end

/-! ### Assets that are what they say -/

/-- The markup of an asset is read as one node with its identity, or, where it has none, as nodes
without identity. -/
def Asset.Faithful (a : Asset) : Prop :=
  ∃ trees, parse a.markup = .ok trees ∧
    (a.key ≠ .unkeyed → trees.map AssetKey.of = [a.key]) ∧
    (a.key = .unkeyed → ∀ t ∈ trees, AssetKey.of t = .unkeyed)

/-- Whether an asset is faithful can be found out by parsing its markup. -/
theorem Asset.faithful_iff {a : Asset} : a.Faithful ↔
    ((parse a.markup).toOption.any fun trees =>
      decide ((a.key ≠ .unkeyed → trees.map AssetKey.of = [a.key]) ∧
        (a.key = .unkeyed → ∀ t ∈ trees, AssetKey.of t = .unkeyed))) = true := by
  rw [Faithful]
  rcases parse a.markup with fault | trees
  · simp [Except.toOption]
  · simp only [Except.toOption, Option.any_some, decide_eq_true_iff, Except.ok.injEq,
      exists_eq_left']

instance (a : Asset) : Decidable a.Faithful := decidable_of_iff' _ Asset.faithful_iff

/-- The identities that a list of assets brings. -/
def Assets.identities (l : Assets) : List AssetKey := (l.map (·.key)).filter (· != .unkeyed)

/-- The identities of two rows are those of the first, then those of the second. -/
theorem presentKeys_append (f g : Forest) : presentKeys (f ++ g) = presentKeys f ++ presentKeys g := by
  rw [presentKeys, List.map_append, List.filter_append]
  rfl

/-- The trees of a faithful asset have its identity, if it has one, and no other. -/
theorem Asset.Faithful.presentKeys_trees {a : Asset} (ha : a.Faithful) :
    presentKeys a.trees = Assets.identities [a] := by
  obtain ⟨trees, hparse, hkeyed, hunkeyed⟩ := ha
  have htrees : a.trees = trees := by rw [Asset.trees, hparse]; rfl
  rw [htrees, presentKeys, Assets.identities, List.map_cons, List.map_nil]
  by_cases hkey : a.key = .unkeyed
  · rw [hkey, List.filter_cons_of_neg (by simp), List.filter_nil, List.filter_eq_nil_iff]
    intro key hmem
    obtain ⟨t, ht, rfl⟩ := List.mem_map.1 hmem
    simp [hunkeyed hkey t ht]
  · rw [hkeyed hkey]

/-- A head gets the identities of the assets that are put there. -/
theorem presentKeys_trees (hl : ∀ a ∈ l, a.Faithful) : presentKeys l.trees = l.identities := by
  induction l with
  | nil => rfl
  | cons a l ih =>
    obtain ⟨ha, hrest⟩ := List.forall_mem_cons.1 hl
    have hcons : Assets.trees (a :: l) = a.trees ++ Assets.trees l := rfl
    rw [hcons, presentKeys_append, ha.presentKeys_trees, ih hrest, Assets.identities,
      Assets.identities, Assets.identities, ← List.filter_append, ← List.map_append,
      List.singleton_append]

/-- A list brings the identities that it has. -/
theorem Assets.mem_identities : key ∈ l.identities ↔ l.hasKey key = true ∧ key ≠ .unkeyed := by
  rw [identities, List.mem_filter, List.mem_map, hasKey_iff, bne_iff_ne]

/-- A list without repetitions brings each identity once. -/
theorem Assets.Distinct.nodup_identities (hl : l.Distinct) : l.identities.Nodup := by
  induction l with
  | nil => exact List.nodup_nil
  | cons a l ih =>
    obtain ⟨ha, hrest⟩ := List.pairwise_cons.1 hl
    rw [identities, List.map_cons, List.filter_cons]
    split
    · next hkey =>
      rw [bne_iff_ne] at hkey
      refine List.nodup_cons.2 ⟨fun hmem => ?_, ih hrest⟩
      obtain ⟨b, hb, heq⟩ := hasKey_iff.1 (mem_identities.1 hmem).1
      exact hkey (ha b hb heq.symm)
    · exact ih hrest

/-! ### Lists without repetitions -/

/-- A list without repetitions is all of its first assets. -/
theorem Assets.Distinct.firsts_eq (hl : l.Distinct) : l.firsts = l := by
  induction l with
  | nil => rfl
  | cons a l ih =>
    obtain ⟨ha, hrest⟩ := List.pairwise_cons.1 hl
    rw [firsts, ih hrest, List.filter_eq_self.2 fun b hb => ?_]
    by_cases hkey : b.key = a.key
    · simp [hkey, ha b hb hkey.symm]
    · simp [hkey]

/-- A list is extended by what it accepts of one without repetitions. -/
theorem Assets.Distinct.extend_eq (hB : B.Distinct) (A : Assets) :
    A.extend B = A ++ B.filter A.accepts := by
  rw [extend_eq_append, hB.firsts_eq]

/-- A list of assets with identities has nothing to take from itself. -/
theorem Assets.extend_self (hl : l.Distinct) (hkeyed : ∀ a ∈ l, a.key ≠ .unkeyed) :
    l.extend l = l := by
  rw [hl.extend_eq, List.filter_eq_nil_iff.2 fun a ha => ?_, List.append_nil]
  have hhas : l.hasKey a.key = true := hasKey_iff.2 ⟨a, ha, rfl⟩
  simp [accepts, hkeyed a ha, hhas]

/-! ### One merge -/

/-- Faithful assets are all accepted by a head. -/
theorem additions_fault (hl : ∀ a ∈ l, a.Faithful) (present : List AssetKey) :
    (additions present l).2 = none := by
  induction l generalizing present with
  | nil => rfl
  | cons a l ih =>
    obtain ⟨⟨trees, hparse, -⟩, hrest⟩ := List.forall_mem_cons.1 hl
    rw [additions]
    split
    · exact ih hrest present
    · rw [hparse]
      exact ih hrest (a.key :: present)

/-- The trees that a list of assets adds to the head of a page. -/
def added (f : Forest) (l : Assets) : Forest :=
  Assets.trees (l.filter (isFresh (presentKeys (residents f))))

/-- Merging no assets changes nothing. -/
theorem merge_nil (f : Forest) : merge f [] = (f, none) := rfl

/-- A page with a head is left as it is. -/
theorem ensureHead_eq_self {kids : Forest} (h : childrenOf? f "head" = some kids) :
    ensureHead f = f := by
  have hsome : (f.find? "head").isSome = (childrenOf? f "head").isSome := Option.isSome_map.symm
  rw [ensureHead, hsome, h, Option.isSome_some, if_pos rfl]

/-- A page without a head gets one below its first `html`, or as part of a whole page. -/
theorem ensureHead_of_none (h : childrenOf? f "head" = none) : ensureHead f =
    (modifyFirst? "html" (.ofElement ⟨"head", []⟩ [] :: ·) f).getD (promote f) := by
  have hsome : (f.find? "head").isSome = (childrenOf? f "head").isSome := Option.isSome_map.symm
  rw [ensureHead, hsome, h, Option.isSome_none, if_neg Bool.false_ne_true]

/-- **A merge adds trees behind what stands in the head.** -/
theorem merge_eq (hl : l.Distinct) (hfaithful : ∀ a ∈ l, a.Faithful) (hne : l ≠ []) :
    (merge f l).2 = none ∧
      modifyFirst? "head" (· ++ added f l) (ensureHead f) = some (merge f l).1 := by
  have hfault := additions_fault hfaithful (presentKeys (residents f))
  have hadded : (additions (presentKeys (residents f)) l).1 = added f l :=
    additions_eq hl _ hfault
  rw [merge, if_neg (by simpa using hne)]
  simp only [childrenOf?_ensureHead, Option.getD_some, hfault, hadded, true_and]
  have hmod : (modifyFirst? "head" (· ++ added f l) (ensureHead f)).map (childrenOf? · "head") = _ :=
    childrenOf?_modifyFirst? (ensureHead f)
  rw [childrenOf?_ensureHead, Option.map_some, Option.map_eq_some_iff] at hmod
  obtain ⟨page, hpage, -⟩ := hmod
  rw [hpage, Option.getD_some]

/-- What stands in the head after a merge. -/
theorem residents_merge (hl : l.Distinct) (hfaithful : ∀ a ∈ l, a.Faithful) :
    residents (merge f l).1 = residents f ++ added f l := by
  rcases eq_or_ne l [] with rfl | hne
  · rw [merge_nil, added, List.filter_nil, Assets.trees, List.flatMap_nil, List.append_nil]
  · rw [residents, childrenOf?_merge hl hne (merge_eq hl hfaithful hne).1]
    rfl

/-- The identities that a list adds are those of the assets that the head takes. -/
theorem presentKeys_added (hfaithful : ∀ a ∈ l, a.Faithful) :
    presentKeys (added f l) = Assets.identities (l.filter (isFresh (presentKeys (residents f)))) :=
  presentKeys_trees fun a ha => hfaithful a (List.mem_of_mem_filter ha)

/-- **A head has the identities of what stood there before and of the assets.** -/
theorem mem_presentKeys_merge (hl : l.Distinct) (hfaithful : ∀ a ∈ l, a.Faithful) :
    key ∈ presentKeys (residents (merge f l).1) ↔
      key ∈ presentKeys (residents f) ∨ key ∈ l.identities := by
  rw [residents_merge hl hfaithful, presentKeys_append, presentKeys_added hfaithful, List.mem_append,
    Assets.mem_identities, Assets.mem_identities]
  by_cases hpresent : key ∈ presentKeys (residents f)
  · simp [hpresent]
  · have hfresh : Assets.hasKey (l.filter (isFresh (presentKeys (residents f)))) key =
        Assets.hasKey l key := by
      rw [Bool.eq_iff_iff, Assets.hasKey_iff, Assets.hasKey_iff]
      refine ⟨fun ⟨a, ha, hkey⟩ => ⟨a, List.mem_of_mem_filter ha, hkey⟩, fun ⟨a, ha, hkey⟩ => ?_⟩
      exact ⟨a, List.mem_filter.2 ⟨ha, by simp [isFresh, hkey, hpresent]⟩, hkey⟩
    rw [hfresh]

/-- Where no identity stands in a head twice, none does after a merge. -/
theorem nodup_presentKeys_merge (hl : l.Distinct) (hfaithful : ∀ a ∈ l, a.Faithful)
    (hnodup : (presentKeys (residents f)).Nodup) :
    (presentKeys (residents (merge f l).1)).Nodup := by
  have hdistinct : Assets.Distinct (l.filter (isFresh (presentKeys (residents f)))) := hl.filter _
  rw [residents_merge hl hfaithful, presentKeys_append, presentKeys_added hfaithful]
  refine hnodup.append hdistinct.nodup_identities fun key hpresent hnew => ?_
  obtain ⟨hhas, hkeyed⟩ := Assets.mem_identities.1 hnew
  obtain ⟨a, ha, rfl⟩ := Assets.hasKey_iff.1 hhas
  have hfresh := (List.mem_filter.1 ha).2
  simp [isFresh, hkeyed, hpresent] at hfresh

/-! ### Two merges -/

/-- What a second list adds is what an extended list adds more than the first one. -/
theorem added_extend (hA : A.Distinct) (hB : B.Distinct) (hfaithful : ∀ a ∈ A, a.Faithful) :
    added f (A.extend B) = added f A ++ added (merge f A).1 B := by
  have hfresh : ∀ b ∈ B, (isFresh (presentKeys (residents f)) b && A.accepts b) =
      isFresh (presentKeys (residents (merge f A).1)) b := by
    intro b _
    have hmem : b.key ∈ presentKeys (residents (merge f A).1) ↔
        b.key ∈ presentKeys (residents f) ∨ b.key ∈ A.identities :=
      mem_presentKeys_merge hA hfaithful
    rw [Assets.mem_identities] at hmem
    by_cases hkey : b.key = .unkeyed
    · simp [isFresh, Assets.accepts, hkey]
    · rw [isFresh, isFresh, Assets.accepts, beq_false_of_ne hkey, Bool.eq_iff_iff]
      simp [hmem, hkey]
  rw [added, added, added, hB.extend_eq, List.filter_append, Assets.trees_append,
    List.filter_filter, List.filter_congr hfresh]

/-- Merging faithful assets never fails. -/
theorem merge_fault (hl : l.Distinct) (hfaithful : ∀ a ∈ l, a.Faithful) : (merge f l).2 = none := by
  rcases eq_or_ne l [] with rfl | hne
  · rfl
  · exact (merge_eq hl hfaithful hne).1

/-- A second merge does what the extended list does in one. -/
theorem merge_merge (hA : A.Distinct) (hB : B.Distinct) (hfaithful : ∀ a ∈ A ++ B, a.Faithful) :
    merge (merge f A).1 B = merge f (A.extend B) := by
  obtain ⟨hfaithfulA, hfaithfulB⟩ := List.forall_mem_append.1 hfaithful
  rcases eq_or_ne A [] with rfl | hneA
  · rw [merge_nil, Assets.extend_nil, hB.firsts_eq]
  rcases eq_or_ne B [] with rfl | hneB
  · exact Prod.ext rfl (merge_fault hA hfaithfulA).symm
  have hAB : (A.extend B).Distinct := hA.extend B
  have hfaithfulAB : ∀ a ∈ A.extend B, a.Faithful := fun a ha =>
    (Assets.mem_extend ha).elim (hfaithfulA a) (hfaithfulB a)
  have hneAB : A.extend B ≠ [] := by
    rw [hB.extend_eq]
    exact List.append_ne_nil_of_left_ne_nil hneA _
  obtain ⟨hfaultA, hpageA⟩ := merge_eq (f := f) hA hfaithfulA hneA
  obtain ⟨hfaultB, hpageB⟩ := merge_eq (f := (merge f A).1) hB hfaithfulB hneB
  obtain ⟨hfaultAB, hpageAB⟩ := merge_eq (f := f) hAB hfaithfulAB hneAB
  -- the second merge finds the head that the first one has left
  rw [ensureHead_eq_self (childrenOf?_merge hA hneA hfaultA)] at hpageB
  have hboth : modifyFirst? "head" (· ++ added f (A.extend B)) (ensureHead f) =
      some (merge (merge f A).1 B).1 := by
    have hchange : (· ++ added f (A.extend B)) =
        (· ++ added (merge f A).1 B) ∘ (· ++ added f A) := by
      funext kids
      rw [added_extend hA hB hfaithfulA, Function.comp_apply, List.append_assoc]
    rw [hchange, ← modifyFirst?_comp, hpageA, Option.bind_some, hpageB]
  exact Prod.ext (Option.some.inj (hboth.symm.trans hpageAB)) (hfaultB.trans hfaultAB.symm)

/-- **Merging two lists one after the other is merging the first list extended by the second.**  So
merging assets that all have identities once more changes nothing.  And where no identity stands in
the head of a page twice, none does after a merge. -/
theorem merge_extend (hA : A.Distinct) (hB : B.Distinct) (hfaithful : ∀ a ∈ A ++ B, a.Faithful) :
    merge (merge f A).1 B = merge f (A.extend B) ∧
      (merge f A).2 = none ∧ (merge f (A.extend B)).2 = none ∧
      ((∀ a ∈ A, a.key ≠ .unkeyed) → merge (merge f A).1 A = merge f A) ∧
      ∀ head, childrenOf? (ensureHead f) "head" = some head → (presentKeys head).Nodup →
        ∀ kids, childrenOf? (merge f (A.extend B)).1 "head" = some kids →
          (presentKeys kids).Nodup := by
  obtain ⟨hfaithfulA, hfaithfulB⟩ := List.forall_mem_append.1 hfaithful
  have hAB : (A.extend B).Distinct := hA.extend B
  have hfaithfulAB : ∀ a ∈ A.extend B, a.Faithful := fun a ha =>
    (Assets.mem_extend ha).elim (hfaithfulA a) (hfaithfulB a)
  refine ⟨merge_merge hA hB hfaithful, merge_fault hA hfaithfulA, merge_fault hAB hfaithfulAB,
    fun hkeyed => ?_, fun head hhead hnodup kids hkids => ?_⟩
  · rw [merge_merge hA hA (List.forall_mem_append.2 ⟨hfaithfulA, hfaithfulA⟩),
      Assets.extend_self hA hkeyed]
  · rw [childrenOf?_ensureHead, Option.some_inj] at hhead
    have hresidents : residents (merge f (A.extend B)).1 = kids := by rw [residents, hkids]
    rw [← hresidents]
    exact nodup_presentKeys_merge hAB hfaithfulAB (hhead.symm ▸ hnodup)

/-- Links, a style and a meta. -/
def earlySheets : Assets :=
  [⟨.link "a.css", "<link href=\"a.css\">"⟩, ⟨.unkeyed, "<meta charset=\"utf-8\">"⟩,
    ⟨.style "p{}", "<style>p{}</style>"⟩]

/-- A script, the style again, and a title with a comment. -/
def lateSheets : Assets :=
  [⟨.script "s", "<script id=\"s\" src=\"s.js\"></script>"⟩, ⟨.style "p{}", "<style>p{}</style>"⟩,
    ⟨.unkeyed, "<title>t</title><!--end-->"⟩]

/-- The hypotheses are satisfiable: the page has no head yet, and a style of its own. -/
theorem merge_extend_sheets : ∃ f, parse "<style>p{}</style><main>m</main>" = .ok f ∧
    childrenOf? f "head" = none ∧ earlySheets.Distinct ∧ lateSheets.Distinct ∧
    (∀ a ∈ earlySheets ++ lateSheets, a.Faithful) ∧
    merge (merge f earlySheets).1 lateSheets = merge f (earlySheets.extend lateSheets) := by
  obtain ⟨f, hparse, hhead⟩ : ∃ f, parse "<style>p{}</style><main>m</main>" = .ok f ∧
      (childrenOf? f "head").isNone = true := exists_ok_of_any (by decide +kernel)
  have hearly : earlySheets.Distinct := by decide
  have hlate : lateSheets.Distinct := by decide
  have hfaithful : ∀ a ∈ earlySheets ++ lateSheets, a.Faithful := by decide +kernel
  exact ⟨f, hparse, Option.isNone_iff_eq_none.1 hhead, hearly, hlate, hfaithful,
    (merge_extend hearly hlate hfaithful).1⟩

end Head
end HtmlCompose
