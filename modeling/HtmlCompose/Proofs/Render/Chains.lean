/-
# The import chains of a result

A result carries a chain of imports for every render below it, in the order of these
renders.  When the result comes from the cache, its chains take the place of the renders
that are not made again: each is checked against the components above, and the first one
that may not stand there is the error.

| what is known of the chains of a result | where |
| --- | --- |
| they may stand where the result has been given | `renderComponent_admitted` |
| they go from import to import, through different components | `Chained` |
| what a chain goes through is the end of a chain before it | `Opened` |

The last point is why the first chain that is refused is refused for its last component
only: what it goes through has been admitted before (`Opened.refused`).

A render stores nothing under the components above it (`renderComponent_above`), so it
gives what it has found or made, and not what a render below has stored in its place
(`renderComponent_ok`).
-/
import HtmlCompose.Proofs.Render.Scope
import HtmlCompose.Proofs.Render.Warmth

namespace HtmlCompose

open Markup Resolve

/-- A component imports another one under some tag. -/
def Library.Imports (library : Library) (uri child : String) : Prop :=
  ∃ component, library uri = .ok component ∧
    ∃ tag, component.settings.imports.get? tag = some child

namespace Renderer

/-! ### What a successful render has found or made -/

/-- Keeping a result caches it under its key, unless the cache is off or has one there. -/
theorem kept_get? (r : Renderer) (key k : String × Fingerprint) (rendered : Rendered) (run : Run) :
    (r.kept key rendered run).2.cache.get? k = (run.cache.get? k).or
      (if r.config.renderCache = true ∧ k = key then some rendered else none) := by
  unfold kept
  by_cases hcache : r.config.renderCache = true
  · simp only [hcache, if_true, true_and, Cache.get?_store, beq_iff_eq]
  · simp [hcache]

/-- A render stores nothing under the components above it. -/
theorem renderComponent_above (r : Renderer) (uri : String) (custom : Option Data)
    (mode : RenderMode) (run : Run) {k : String × Fingerprint} (hk : k.1 ∈ run.ancestry) :
    (r.renderComponent uri custom mode run).2.cache.get? k = run.cache.get? k := by
  obtain ⟨stack, hstack⟩ : ∃ stack, run.ancestry = stack := ⟨_, rfl⟩
  induction stack using below_induction r.config.maxDepth generalizing uri custom mode run with
  | step stack ih =>
    rw [renderComponent_eq]
    split_ifs with hcycle hdepth
    · rfl
    · rfl
    have hlimit : stack.length ≤ r.config.maxDepth := hstack ▸ Nat.le_of_not_lt hdepth
    have hne : ∀ component, k ≠ key uri component custom mode := by
      rintro component rfl
      exact hcycle hk
    let Same (s : Run) : Prop := s.ancestry = stack ++ [uri] ∧ s.cache.get? k = run.cache.get? k
    have hbelow : ∀ child data s, Same s → Same (r.descend child data s).2 := by
      rintro child data s ⟨hs, hsame⟩
      refine ⟨(r.renderComponent_ancestry child (some data) .descendant s).trans hs, ?_⟩
      have hk' : k.1 ∈ s.ancestry := hs ▸ List.mem_append_left _ (hstack ▸ hk)
      exact (ih hlimit uri child (some data) .descendant s hk' hs).trans hsame
    have hstart : Same (noted (entered run uri) custom mode) := ⟨by rw [← hstack]; rfl, rfl⟩
    simp only [renderEntered_eq, renderFresh_eq]
    rcases r.library uri with error | component
    · rfl
    simp only
    rcases r.hit? uri component custom mode (entered run uri).cache with _ | hit
    swap
    · rfl
    rcases questions uri component (Context.merge component.settings custom) with error | d
    · rfl
    simp only
    obtain ⟨-, hafter⟩ := d.run_invariant Same hbelow
      ⟨noted (entered run uri) custom mode, [], []⟩ hstart
    rcases r.conclude uri component (Context.merge component.settings custom) mode _ with
      error | rendered
    · exact hafter
    · simp only [kept_get?, hne component, and_false, if_false, Option.or_none]
      exact hafter

/-- Neither do the renders that a component's questions lead to. -/
theorem run_above (r : Renderer) (d : Dialogue) (run : Run) {k : String × Fingerprint}
    (hk : k.1 ∈ run.ancestry) :
    (d.run r.descend ⟨run, [], []⟩).after.run.cache.get? k = run.cache.get? k := by
  refine (d.run_invariant (fun s : Run => s.ancestry = run.ancestry ∧
    s.cache.get? k = run.cache.get? k) ?_ ⟨run, [], []⟩ ⟨rfl, rfl⟩).2
  rintro child data s ⟨hs, hsame⟩
  exact ⟨(r.renderComponent_ancestry child (some data) .descendant s).trans hs,
    (r.renderComponent_above child (some data) .descendant s (hs ▸ hk)).trans hsame⟩

/-- What is kept where nothing has been is given back. -/
theorem kept_new {r : Renderer} {key : String × Fingerprint} {rendered : Rendered} {run : Run}
    (h : r.config.renderCache = true → run.cache.get? key = none) :
    (r.kept key rendered run).1 = .ok rendered := by
  unfold kept
  split_ifs with hcache
  · simp only [Cache.get?_store, h hcache, beq_self_eq_true, if_true, Option.none_or,
      Option.getD_some]
  · rfl

/-- **What a successful render has been through.**  It has been entered, and it has found its result
in the cache with chains that may stand here, or it has made it from what the renders below have
given.  If the cache is in use, the result is there afterwards. -/
theorem renderComponent_ok {r : Renderer} {uri : String} {custom : Option Data}
    {mode : RenderMode} {run : Run} {rendered : Rendered}
    (h : (r.renderComponent uri custom mode run).1 = .ok rendered) :
    refuse r.config.maxDepth run.ancestry [uri] = none ∧
      ∃ component, r.library uri = .ok component ∧
        (r.config.renderCache = true → (r.renderComponent uri custom mode run).2.cache.get?
          (key uri component custom mode) = some rendered) ∧
        ((r.hit? uri component custom mode run.cache = some rendered ∧
            r.refusal? (run.ancestry ++ [uri]) rendered.importPaths = none) ∨
          (r.hit? uri component custom mode run.cache = none ∧
            ∃ d, questions uri component (Context.merge component.settings custom) = .ok d ∧
              r.conclude uri component (Context.merge component.settings custom) mode
                (d.run r.descend ⟨noted (entered run uri) custom mode, [], []⟩) =
                .ok rendered)) := by
  rw [renderComponent_eq] at h ⊢
  split_ifs at h ⊢ with hcycle hdepth
  refine ⟨by rw [refuse_singleton, if_neg hcycle, if_neg hdepth], ?_⟩
  simp only [renderEntered_eq, renderFresh_eq] at h ⊢
  rcases hload : r.library uri with error | component <;> rw [hload] at h
  · cases h
  refine ⟨component, rfl, ?_⟩
  simp only at h ⊢
  rcases hhit : r.hit? uri component custom mode (entered run uri).cache with _ | hit <;>
    rw [hhit] at h
  swap
  · simp only at h ⊢
    rcases hrefusal : r.refusal? (entered run uri).ancestry hit.importPaths with _ | error <;>
      rw [hrefusal] at h
    · obtain rfl := Except.ok.inj h
      refine ⟨fun hcache => ?_, .inl ⟨hhit, hrefusal⟩⟩
      rwa [hit?, if_pos hcache] at hhit
    · cases h
  rcases hd : questions uri component (Context.merge component.settings custom) with error | d <;>
    rw [hd] at h
  · cases h
  simp only at h ⊢
  -- nothing has been stored under the key since the look into the cache
  have hnone : r.config.renderCache = true →
      (d.run r.descend ⟨noted (entered run uri) custom mode, [], []⟩).after.run.cache.get?
        (key uri component custom mode) = none := by
    intro hcache
    rw [r.run_above d (noted (entered run uri) custom mode)
      (List.mem_append_right _ (List.mem_singleton_self uri))]
    rwa [hit?, if_pos hcache] at hhit
  rcases hconclude : r.conclude uri component (Context.merge component.settings custom) mode
    (d.run r.descend ⟨noted (entered run uri) custom mode, [], []⟩) with error | fresh <;>
    rw [hconclude] at h
  · cases h
  obtain rfl : fresh = rendered := Except.ok.inj ((kept_new hnone).symm.trans h)
  refine ⟨fun hcache => ?_, .inr ⟨hhit, d, rfl, hconclude⟩⟩
  simp only [kept_get?, hnone hcache, hcache, and_self, if_true, Option.none_or]

/-! ### Chains that may stand somewhere -/

/-- A chain ends at a component that may stand below some components, if the components that it goes
through are taken with them. -/
theorem refuse_concat (limit : Nat) (stack : List String) {through : List String} {last : String}
    (hlast : last ∉ through) :
    refuse limit stack (through ++ [last]) = refuse limit (stack ++ through) [last] := by
  have hlength : stack.length + (through ++ [last]).length - 1 = (stack ++ through).length := by
    simp only [List.length_append, List.length_singleton]
    omega
  rw [refuse_singleton, refuse, List.getLast?_concat, hlength]
  simp [hlast]

/-- A component alone may stand where it is new and the limit allows one more. -/
theorem refuse_eq_none_iff {limit : Nat} {stack : List String} {uri : String} :
    refuse limit stack [uri] = none ↔ uri ∉ stack ∧ stack.length ≤ limit := by
  rw [refuse_singleton]
  split_ifs with hcycle hdepth
  · simp [hcycle]
  · simp [hdepth]
  · simp [hcycle, Nat.le_of_not_lt hdepth]

/-- **A render is refused, or it enters its component.** -/
theorem renderComponent_eq_refuse (r : Renderer) (uri : String) (custom : Option Data)
    (mode : RenderMode) (run : Run) :
    r.renderComponent uri custom mode run =
      match refuse r.config.maxDepth run.ancestry [uri] with
      | some error => (.error error, run)
      | none =>
        ((r.renderEntered r.descend uri custom mode (entered run uri)).1,
          { (r.renderEntered r.descend uri custom mode (entered run uri)).2 with
            ancestry := run.ancestry }) := by
  rw [renderComponent_eq, refuse_singleton]
  split_ifs <;> rfl

/-- The last component of a chain that may stand somewhere is not one of those above. -/
theorem not_mem_of_refuse {limit : Nat} {stack path : List String}
    (h : refuse limit stack path = none) {u : String} (hu : u ∈ stack) : u ∉ path.getLast? := by
  intro hlast
  rw [refuse, hlast] at h
  simp [hu] at h

/-- Chains are not refused just if each of them may stand there. -/
theorem refusal?_eq_none_iff {r : Renderer} {stack : List String} {paths : List (List String)} :
    r.refusal? stack paths = none ↔ ∀ path ∈ paths, refuse r.config.maxDepth stack path = none := by
  rw [refusal?_eq, List.findSome?_eq_none_iff]

/-- Chains that may stand below a component may stand above it when they go through it. -/
theorem refuse_through {limit : Nat} {stack : List String} {uri : String}
    {paths : List (List String)} (huri : refuse limit stack [uri] = none)
    (hpaths : ∀ path ∈ paths, refuse limit (stack ++ [uri]) path = none) :
    ∀ path ∈ [uri] :: paths.map (uri :: ·), refuse limit stack path = none := by
  refine List.forall_mem_cons.2 ⟨huri, List.forall_mem_map.2 fun path hpath => ?_⟩
  have hlast : uri ∉ path.getLast? :=
    not_mem_of_refuse (hpaths path hpath) (List.mem_append_right _ (List.mem_singleton_self uri))
  rw [refuse_cons hlast huri]
  exact hpaths path hpath

/-- **A result is given only where all its chains may stand**, whatever the cache holds. -/
theorem renderComponent_admitted {r : Renderer} {uri : String} {custom : Option Data}
    {mode : RenderMode} {run : Run} {rendered : Rendered}
    (h : (r.renderComponent uri custom mode run).1 = .ok rendered) :
    ∀ path ∈ rendered.importPaths,
      refuse r.config.maxDepth (run.ancestry ++ [uri]) path = none := by
  obtain ⟨stack, hstack⟩ : ∃ stack, run.ancestry = stack := ⟨_, rfl⟩
  induction stack using below_induction r.config.maxDepth
    generalizing uri custom mode run rendered with
  | step stack ih =>
    obtain ⟨huri, component, -, -, hresult⟩ := renderComponent_ok h
    rcases hresult with ⟨-, hrefusal⟩ | ⟨-, d, -, hconclude⟩
    · exact refusal?_eq_none_iff.1 hrefusal
    have hlimit : stack.length ≤ r.config.maxDepth := hstack ▸ (refuse_eq_none_iff.1 huri).2
    obtain ⟨hend, hpaths⟩ := conclude_eq_ok hconclude
    rw [hpaths, hstack]
    refine (d.run_progress (fun p : Progress Run => p.run.ancestry = stack ++ [uri] ∧
      ∀ path ∈ p.paths, refuse r.config.maxDepth (stack ++ [uri]) path = none) ?_ ⟨_, [], []⟩
      ⟨by rw [← hstack]; rfl, fun path hpath => absurd hpath List.not_mem_nil⟩ hend).2
    rintro child data p answer s ⟨hp, hpaths⟩ hanswer
    have hrun : r.renderComponent child (some data) .descendant p.run = (.ok answer, s) := hanswer
    have hkept := r.renderComponent_ancestry child (some data) .descendant p.run
    rw [hrun] at hkept
    have hnew := refuse_through (renderComponent_ok (congrArg Prod.fst hrun)).1
      (ih hlimit uri (congrArg Prod.fst hrun) hp)
    exact ⟨hkept.trans hp, List.forall_mem_append.2 ⟨hpaths, hp ▸ hnew⟩⟩

/-! ### Chains in the order of the renders -/

/-- What a chain goes through is a chain before it, or one of some that are known. -/
def Opened (known : List (List String)) : List (List String) → Prop
  | [] => True
  | path :: rest =>
    (path.dropLast = [] ∨ path.dropLast ∈ known) ∧ Opened (path :: known) rest

/-- Chains are opened by more known ones as well. -/
theorem Opened.mono {known known' paths : List (List String)} (h : Opened known paths)
    (hsub : known ⊆ known') : Opened known' paths := by
  induction paths generalizing known known' with
  | nil => trivial
  | cons path rest ih => exact ⟨h.1.imp_right (hsub ·), ih h.2 (List.cons_subset_cons path hsub)⟩

/-- Chains that are opened by the same ones are so one after the other. -/
theorem Opened.append {known paths others : List (List String)} (h : Opened known paths)
    (hothers : Opened known others) : Opened known (paths ++ others) := by
  induction paths generalizing known with
  | nil => exact hothers
  | cons path rest ih => exact ⟨h.1, ih h.2 (hothers.mono (List.subset_cons_self path known))⟩

/-- Chains that go through one more component are opened by the chain to this component. -/
theorem Opened.cons_map {known paths : List (List String)} (h : Opened known paths) (uri : String) :
    Opened ([uri] :: known.map (uri :: ·)) (paths.map (uri :: ·)) := by
  induction paths generalizing known with
  | nil => trivial
  | cons path rest ih =>
    refine ⟨?_, (ih h.2).mono ?_⟩
    · rcases path with _ | ⟨u, path⟩
      · exact .inl rfl
      · refine .inr ?_
        rw [List.dropLast_cons_cons]
        rcases h.1 with hnil | hmem
        · rw [hnil]
          exact List.mem_cons_self
        · exact List.mem_cons_of_mem _ (List.mem_map_of_mem hmem)
    · intro q hq
      simp only [List.map_cons, List.mem_cons] at hq ⊢
      tauto

/-- A chain may stand below some components, and so may all that it goes through. -/
structure Free (limit : Nat) (stack path : List String) : Prop where
  admitted : refuse limit stack path = none
  apart : ∀ u ∈ path, u ∉ stack

/-- A chain that may stand somewhere is free if what it goes through is. -/
theorem free_of_opened {limit : Nat} {stack path : List String} {known : List (List String)}
    (hopened : path.dropLast = [] ∨ path.dropLast ∈ known)
    (hknown : ∀ q ∈ known, Free limit stack q) (h : refuse limit stack path = none) :
    Free limit stack path := by
  refine ⟨h, fun u hu hmem => ?_⟩
  rcases List.eq_nil_or_concat path with rfl | ⟨through, last, rfl⟩
  · cases hu
  rw [List.concat_eq_append, List.mem_append, List.mem_singleton] at hu
  rw [List.concat_eq_append, List.dropLast_concat] at hopened
  rcases hu with hu | rfl
  · rcases hopened with rfl | hthrough
    · cases hu
    · exact (hknown through hthrough).apart u hu hmem
  · exact not_mem_of_refuse h hmem (by simp)

/-- Chains that may stand below some components are free of these components. -/
theorem Opened.free {limit : Nat} {stack : List String} {known paths : List (List String)}
    (h : Opened known paths) (hknown : ∀ q ∈ known, Free limit stack q)
    (hpaths : ∀ path ∈ paths, refuse limit stack path = none) :
    ∀ path ∈ paths, Free limit stack path := by
  induction paths generalizing known with
  | nil => exact fun path hpath => absurd hpath List.not_mem_nil
  | cons path rest ih =>
    rw [List.forall_mem_cons] at hpaths
    have hfree := free_of_opened h.1 hknown hpaths.1
    exact List.forall_mem_cons.2 ⟨hfree,
      ih h.2 (List.forall_mem_cons.2 ⟨hfree, hknown⟩) hpaths.2⟩

/-- **The first chain that is refused is refused for its last component**: what it goes through may
stand where the chain may not. -/
theorem Opened.refused {limit : Nat} {stack : List String} {known paths : List (List String)}
    (h : Opened known paths) (hknown : ∀ q ∈ known, Free limit stack q) {error : RenderError}
    (herror : paths.findSome? (refuse limit stack) = some error) :
    ∃ through last, through ++ [last] ∈ paths ∧
      (through = [] ∨ Free limit stack through) ∧
      refuse limit stack (through ++ [last]) = some error := by
  induction paths generalizing known with
  | nil => cases herror
  | cons path rest ih =>
    rw [List.findSome?_cons] at herror
    rcases hpath : refuse limit stack path with _ | first <;> rw [hpath] at herror
    · have hfree := free_of_opened h.1 hknown hpath
      obtain ⟨through, last, hmem, hrest⟩ :=
        ih h.2 (List.forall_mem_cons.2 ⟨hfree, hknown⟩) herror
      exact ⟨through, last, List.mem_cons_of_mem path hmem, hrest⟩
    · obtain rfl : first = error := Option.some.inj herror
      rcases List.eq_nil_or_concat path with rfl | ⟨through, last, rfl⟩
      · cases hpath
      rw [List.concat_eq_append] at hpath h ⊢
      have hthrough := h.1
      rw [List.dropLast_concat] at hthrough
      exact ⟨through, last, List.mem_cons_self, hthrough.imp_right (hknown through), hpath⟩

/-! ### Chains of imports -/

/-- Chains from a component, each going from import to import through different components. -/
structure Chained (library : Library) (uri : String) (paths : List (List String)) : Prop where
  linked : ∀ path ∈ paths, (uri :: path).IsChain library.Imports
  nodup : ∀ path ∈ paths, (uri :: path).Nodup
  opened : Opened [] paths

/-- A component that has rendered nothing below it has no chains to account for. -/
theorem chained_nil (library : Library) (uri : String) : Chained library uri [] :=
  ⟨fun _ h => absurd h List.not_mem_nil, fun _ h => absurd h List.not_mem_nil, trivial⟩

/-- An import adds the chain to its component, and the chains of the component behind it. -/
theorem Chained.collect {library : Library} {uri child : String}
    {paths below : List (List String)} (h : Chained library uri paths)
    (himports : library.Imports uri child) (hbelow : Chained library child below)
    (hnew : ∀ path ∈ [child] :: below.map (child :: ·), uri ∉ path) :
    Chained library uri (paths ++ [child] :: below.map (child :: ·)) where
  linked := by
    refine List.forall_mem_append.2 ⟨h.linked, List.forall_mem_cons.2 ⟨?_, ?_⟩⟩
    · exact List.isChain_pair.2 himports
    · exact List.forall_mem_map.2 fun path hpath =>
        List.isChain_cons_cons.2 ⟨himports, hbelow.linked path hpath⟩
  nodup := by
    rw [List.forall_mem_cons] at hnew
    refine List.forall_mem_append.2 ⟨h.nodup, List.forall_mem_cons.2 ⟨?_, ?_⟩⟩
    · exact List.nodup_cons.2 ⟨hnew.1, List.nodup_singleton child⟩
    · exact List.forall_mem_map.2 fun path hpath =>
        List.nodup_cons.2 ⟨hnew.2 _ (List.mem_map_of_mem hpath), hbelow.nodup path hpath⟩
  opened := h.opened.append ⟨.inl rfl, hbelow.opened.cons_map child⟩

/-- Where the chains of an import may stand, they go through none of the components above. -/
theorem Chained.apart {library : Library} {child : String} {below : List (List String)}
    (h : Chained library child below) {limit : Nat} {stack : List String}
    (hadmitted : ∀ path ∈ [child] :: below.map (child :: ·), refuse limit stack path = none)
    {u : String} (hu : u ∈ stack) : ∀ path ∈ [child] :: below.map (child :: ·), u ∉ path := by
  have hopened : Opened [] ([child] :: below.map (child :: ·)) :=
    ⟨.inl rfl, h.opened.cons_map child⟩
  intro path hpath hmem
  exact (hopened.free (fun q hq => absurd hq List.not_mem_nil) hadmitted path hpath).apart u hmem hu

/-- All cached results carry chains of imports from their components. -/
def Traced (library : Library) (cache : RenderCache) : Prop :=
  ∀ key rendered, cache.get? key = some rendered → Chained library key.1 rendered.importPaths

/-- Keeping a result with such chains keeps the others. -/
theorem Traced.kept {library : Library} {run : Run} (h : Traced library run.cache) (r : Renderer)
    {key : String × Fingerprint} {rendered : Rendered}
    (hrendered : Chained library key.1 rendered.importPaths) :
    Traced library (r.kept key rendered run).2.cache := by
  intro k found hfound
  rw [kept_get?] at hfound
  rcases hold : run.cache.get? k with _ | old <;> rw [hold] at hfound
  · rw [Option.none_or] at hfound
    split_ifs at hfound with hk
    obtain rfl := Option.some.inj hfound
    rw [hk.2]
    exact hrendered
  · rw [Option.some_or] at hfound
    exact h k found (hold.trans hfound)

/-- What is given back for it has such chains too. -/
theorem Traced.given {library : Library} {run : Run} (h : Traced library run.cache) {r : Renderer}
    {key : String × Fingerprint} {rendered given : Rendered}
    (hrendered : Chained library key.1 rendered.importPaths)
    (hgiven : (r.kept key rendered run).1 = .ok given) : Chained library key.1 given.importPaths := by
  have htraced := h.kept r hrendered
  unfold Renderer.kept at hgiven htraced
  split_ifs at hgiven htraced
  · obtain rfl := Except.ok.inj hgiven
    rcases hstored : (run.cache.store key rendered).get? key with _ | stored
    · exact hrendered
    · exact htraced key stored hstored
  · exact Except.ok.inj hgiven ▸ hrendered

end Renderer
end HtmlCompose
