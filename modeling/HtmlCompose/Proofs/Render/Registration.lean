/-
# One registration for each component, one bootstrap for each render

A behavior comes to the page twice: its registration once for the component, and a
bootstrap once for each render, which has to find the registration done.  The lists of
assets on the way up are told nothing about this; they drop what they hold already and
keep what has no identity.

That this is enough is an invariant of the lists, kept when one list takes up another: the
registration of the component is before every bootstrap of it, and nothing else is either
of them (`Orderly`).  Bootstraps have no identity, so there are as many of them as renders
that bring one (`Unconcerned.count_assets`).  The head of the page then has one
registration and all bootstraps behind it (`registered_once`).

Identity is where this could go wrong, and where it does.  A script with an `id`, and a
script without one whose `src` is the same text, have one identity.  So it does not do to
ask that no template has a script with the `id` of a registration: none must have its
identity (`Unconcerned`).  With such a `src` in the page the registration is left out, and
the bootstrap calls what is not there (`registration_left_out`).
-/
import HtmlCompose.Proofs.Enhance.Scripts
import HtmlCompose.Proofs.Render.Composition
import HtmlCompose.Render.Registry

namespace HtmlCompose

open Markup

namespace Behavior

variable {globalName id : String}

/-- The node has the identity of a component's registration, or runs the component's behavior. -/
def Concerns (globalName id : String) (t : Tree) : Prop :=
  Head.AssetKey.of t = .script (registrationId id) ∨ isBootstrap globalName id t = true

/-- The asset neither has the identity of a component's registration nor is read as anything that
has it or runs the component's behavior. -/
def Foreign (globalName id : String) (a : Head.Asset) : Prop :=
  a.key ≠ .script (registrationId id) ∧ ∀ t ∈ a.trees, ¬Concerns globalName id t

instance (t : Tree) : Decidable (Concerns globalName id t) := inferInstanceAs (Decidable (_ ∨ _))

instance (a : Head.Asset) : Decidable (Foreign globalName id a) :=
  inferInstanceAs (Decidable (_ ∧ _))

/-- The asset is the registration of a component, or no registration of it; and what runs the
behavior of the component has no identity. -/
def Fits (globalName id : String) (a : Head.Asset) : Prop :=
  (a.key = .script (registrationId id) ∧ ∃ t, a.trees = [t] ∧ isRegistration id t = true ∧
      isBootstrap globalName id t = false) ∨
    (a.key ≠ .script (registrationId id) ∧ ∀ t ∈ a.trees, isRegistration id t = false ∧
      (isBootstrap globalName id t = true → a.key = .unkeyed))

/-- Assets that fit, the registration of a component before everything that runs its behavior. -/
structure Orderly (globalName id : String) (l : Head.Assets) : Prop where
  led : l.Led (.script (registrationId id)) fun a => ∃ t ∈ a.trees, isBootstrap globalName id t
  fits : ∀ a ∈ l, Fits globalName id a

/-- A registration is identified by the name of its component. -/
theorem key_of_isRegistration {t : Tree} (h : isRegistration id t = true) :
    Head.AssetKey.of t = .script (registrationId id) := by
  obtain ⟨e, he, h⟩ := (Option.any_eq_true _ _).1 h
  obtain ⟨hscript, hid⟩ := Bool.and_eq_true_iff.1 h
  have hlink : ¬e.is "link" = true := fun hlink => by
    have hsame : Text.foldCase "script".toList = Text.foldCase "link".toList :=
      (eq_of_beq hscript).symm.trans (eq_of_beq hlink)
    exact absurd hsame (by decide)
  simp only [Head.AssetKey.of, he, if_neg hlink, if_pos hscript, eq_of_beq hid, Option.some_or,
    Option.map_some, Option.getD_some]

/-- An asset with an identity that fits runs no behavior. -/
theorem Fits.count_eq_zero {a : Head.Asset} (h : Fits globalName id a) (hkey : a.key ≠ .unkeyed) :
    a.trees.countP (isBootstrap globalName id) = 0 := by
  rw [List.countP_eq_zero]
  rcases h with ⟨-, t, htrees, -, ht⟩ | ⟨-, hnone⟩
  · rw [htrees]
    simpa using ht
  · exact fun t ht hboot => hkey ((hnone t ht).2 hboot)

/-! ### Lists in order -/

/-- The empty list of assets is in order. -/
theorem orderly_nil : Orderly globalName id [] :=
  ⟨Head.Assets.led_nil, fun _ ha => absurd ha List.not_mem_nil⟩

/-- **Extending keeps assets in order.** -/
theorem Orderly.extend {l others : Head.Assets} (hl : Orderly globalName id l)
    (hothers : Orderly globalName id others) : Orderly globalName id (l.extend others) where
  led := hl.led.extend hothers.led
  fits a ha := (Head.Assets.mem_extend ha).elim (hl.fits a) (hothers.fits a)

/-- Assets that have nothing to do with the component are in order. -/
theorem orderly_of_foreign {l : Head.Assets} (h : ∀ a ∈ l, Foreign globalName id a) :
    Orderly globalName id l where
  led before a after heq := by
    rintro ⟨t, ht, hboot⟩
    have ha : a ∈ l := heq ▸ List.mem_append_right before List.mem_cons_self
    exact absurd (.inr hboot) ((h a ha).2 t ht)
  fits a ha := by
    refine .inr ⟨(h a ha).1, fun t ht => ⟨Bool.eq_false_iff.2 fun hreg => ?_, fun hboot => ?_⟩⟩
    · exact (h a ha).2 t ht (.inl (key_of_isRegistration hreg))
    · exact absurd (.inr hboot) ((h a ha).2 t ht)

section Scripts

variable {id' compiled : String} {data : Data}

variable (hglobal : Unclosing globalName.toList) (hid : id.toList.all Char.isAlphanum = true)
  (hid' : id'.toList.all Char.isAlphanum = true)

include hglobal hid'

/-- The registration of any component fits. -/
theorem fits_registration : Fits globalName id (registration globalName id' compiled) := by
  have htrees : (registration globalName id' compiled).trees = _ := trees_registration hglobal hid'
  have hboot : isBootstrap globalName id (script (registrationAttrs id')
      (registrationText globalName id' compiled)) = false := isBootstrap_registrationText _
  by_cases heq : id = id'
  · exact .inl ⟨by rw [heq]; rfl, _, htrees, by rw [isRegistration_script, heq, beq_self_eq_true],
      hboot⟩
  · refine .inr ⟨fun hkey => ?_, fun t ht => ?_⟩
    · exact heq (registrationId_inj.1 (Head.AssetKey.script.inj hkey)).symm
    · rw [htrees, List.mem_singleton] at ht
      rw [ht, hboot, isRegistration_script]
      exact ⟨beq_false_of_ne heq, nofun⟩

/-- The bootstrap of any component fits. -/
theorem fits_bootstrap : Fits globalName id (bootstrap globalName id' data) := by
  refine .inr ⟨nofun, fun t ht => ⟨?_, fun _ => rfl⟩⟩
  rw [trees_bootstrap hglobal hid', List.mem_singleton] at ht
  rw [ht, isRegistration_script_nil]

include hid

/-- What a render brings for its behavior is in order. -/
theorem orderly_scripts : Orderly globalName id
    [registration globalName id' compiled, bootstrap globalName id' data] where
  led before a after heq := by
    rintro ⟨t, ht, hboot⟩
    rcases before with _ | ⟨first, before⟩
    · -- the registration itself runs nothing
      obtain ⟨rfl, -⟩ := List.cons.inj heq
      rw [trees_registration hglobal hid', List.mem_singleton] at ht
      rw [ht, isBootstrap_registrationText] at hboot
      cases hboot
    · obtain ⟨rfl, htail⟩ := List.cons.inj heq
      rcases before with _ | ⟨second, before⟩
      · obtain ⟨rfl, -⟩ := List.cons.inj htail
        rw [trees_bootstrap hglobal hid', List.mem_singleton] at ht
        rw [ht, isBootstrap_bootstrapText hid hid', beq_iff_eq] at hboot
        exact Head.Assets.hasKey_iff.2 ⟨_, List.mem_cons_self, hboot ▸ rfl⟩
      · simp at htail
  fits := by
    simp only [List.forall_mem_cons]
    exact ⟨fits_registration hglobal hid', fits_bootstrap hglobal hid', nofun⟩

/-- What a render brings for its behavior has one bootstrap, of its own component. -/
theorem count_scripts :
    (Head.Assets.trees [registration globalName id' compiled,
      bootstrap globalName id' data]).countP (isBootstrap globalName id) =
      if id = id' then 1 else 0 := by
  have htrees : Head.Assets.trees [registration globalName id' compiled,
      bootstrap globalName id' data] = [script (registrationAttrs id')
        (registrationText globalName id' compiled), script [] (bootstrapText globalName id' data)] := by
    rw [Head.Assets.trees, List.flatMap_cons, List.flatMap_cons, trees_registration hglobal hid',
      trees_bootstrap hglobal hid']
    rfl
  rw [htrees, List.countP_cons, List.countP_cons, isBootstrap_registrationText,
    isBootstrap_bootstrapText hid hid']
  simp

end Scripts

/-! ### Orderly lists in a head -/

/-- Assets that have nothing to do with the component run no behavior of it. -/
theorem count_of_foreign {l : Head.Assets} (h : ∀ a ∈ l, Foreign globalName id a) :
    l.trees.countP (isBootstrap globalName id) = 0 := by
  refine List.countP_eq_zero.2 fun t ht hboot => ?_
  obtain ⟨a, ha, hta⟩ := List.mem_flatMap.1 ht
  exact (h a ha).2 t hta (.inr hboot)

/-- Where a bootstrap is, the registration is too. -/
theorem Orderly.hasKey {l : Head.Assets} (hl : Orderly globalName id l)
    (hboot : 0 < l.trees.countP (isBootstrap globalName id)) :
    l.hasKey (.script (registrationId id)) = true := by
  obtain ⟨t, ht, htboot⟩ := List.countP_pos_iff.1 hboot
  obtain ⟨a, ha, hta⟩ := List.mem_flatMap.1 ht
  obtain ⟨before, after, rfl⟩ := List.append_of_mem ha
  rw [Head.Assets.hasKey_append, hl.led before a after rfl ⟨t, hta, htboot⟩, Bool.true_or]

/-- What has an identity runs nothing. -/
theorem Orderly.keyed {l : Head.Assets} (hl : Orderly globalName id l) :
    ∀ a ∈ l, a.key ≠ .unkeyed → a.trees.countP (isBootstrap globalName id) = 0 :=
  fun a ha hkey => (hl.fits a ha).count_eq_zero hkey

/-- An asset without the identity of the registration is none, if it fits. -/
theorem Fits.isRegistration_eq_false {a : Head.Asset} (h : Fits globalName id a)
    (hkey : a.key ≠ .script (registrationId id)) : ∀ t ∈ a.trees, isRegistration id t = false :=
  fun t ht => h.elim (fun h => absurd h.1 hkey) fun h => (h.2 t ht).1

/-- A list in order is cut by the registration, which is alone with its identity, and has every
bootstrap behind it. -/
theorem Orderly.split {l : Head.Assets} (hl : Orderly globalName id l) (hdistinct : l.Distinct)
    (hboot : 0 < l.trees.countP (isBootstrap globalName id)) :
    ∃ left k right, l = left ++ k :: right ∧ k.key = .script (registrationId id) ∧
      (∀ a ∈ left ++ right, a.key ≠ .script (registrationId id)) ∧
      ∀ a ∈ left, ∀ t ∈ a.trees, isBootstrap globalName id t = false := by
  obtain ⟨k, hk, hkey⟩ := Head.Assets.hasKey_iff.1 (hl.hasKey hboot)
  obtain ⟨left, right, rfl⟩ := List.append_of_mem hk
  obtain ⟨-, hright, hleft⟩ := List.pairwise_append.1 hdistinct
  have hkeyed : k.key ≠ .unkeyed := by rw [hkey]; nofun
  have hleft' : ∀ a ∈ left, a.key ≠ .script (registrationId id) := fun a ha heq =>
    have hsame := heq.trans hkey.symm
    hkeyed (hsame ▸ hleft a ha k List.mem_cons_self hsame)
  refine ⟨left, k, right, rfl, hkey, fun a ha => ?_, fun a ha t ht => ?_⟩
  · rcases List.mem_append.1 ha with ha | ha
    · exact hleft' a ha
    · exact fun heq => hkeyed ((List.pairwise_cons.1 hright).1 a ha (hkey.trans heq.symm))
  · refine Bool.eq_false_iff.2 fun htboot => ?_
    obtain ⟨first, rest, rfl⟩ := List.append_of_mem ha
    obtain ⟨b, hb, hbkey⟩ := Head.Assets.hasKey_iff.1
      (hl.led first a (rest ++ k :: right) (by simp) ⟨t, ht, htboot⟩)
    exact hleft' b (List.mem_append_left _ hb) hbkey

/-- **A head that gets assets in order has one registration and all bootstraps behind it**, if it
has had nothing to do with the component before. -/
theorem Orderly.head {l : Head.Assets} (hl : Orderly globalName id l) (hdistinct : l.Distinct)
    {f : Forest} (hf : ∀ t ∈ f, ¬Concerns globalName id t)
    (hboot : 0 < l.trees.countP (isBootstrap globalName id)) :
    ∃ before registration after,
      f ++ Head.Assets.trees (l.filter (Head.isFresh (Head.presentKeys f))) =
        before ++ registration :: after ∧
      isRegistration id registration = true ∧
      (∀ t ∈ before ++ after, isRegistration id t = false) ∧
      (∀ t ∈ before, isBootstrap globalName id t = false) ∧
      after.countP (isBootstrap globalName id) =
        l.trees.countP (isBootstrap globalName id) := by
  obtain ⟨left, k, right, rfl, hkey, hothers, hleft⟩ := hl.split hdistinct hboot
  obtain ⟨t, htrees, ht, htboot⟩ : ∃ t, k.trees = [t] ∧ isRegistration id t = true ∧
      isBootstrap globalName id t = false :=
    (hl.fits k (List.mem_append_right left List.mem_cons_self)).elim (·.2) fun h =>
      absurd hkey h.1
  have hfresh : Head.isFresh (Head.presentKeys f) k = true := by
    have habsent : k.key ∉ Head.presentKeys f := fun hmem => by
      obtain ⟨u, hu, hukey⟩ := List.mem_map.1 (List.mem_of_mem_filter hmem)
      exact hf u hu (.inl (hukey.trans hkey))
    simp [Head.isFresh, habsent]
  have hsplit : f ++ Head.Assets.trees
        ((left ++ k :: right).filter (Head.isFresh (Head.presentKeys f))) =
      (f ++ Head.Assets.trees (left.filter (Head.isFresh (Head.presentKeys f)))) ++
        t :: Head.Assets.trees (right.filter (Head.isFresh (Head.presentKeys f))) := by
    rw [List.filter_append, List.filter_cons_of_pos hfresh, Head.Assets.trees_append,
      Head.Assets.trees, Head.Assets.trees, List.flatMap_cons, htrees, List.append_assoc]
    rfl
  have hnone : ∀ a ∈ left ++ right, ∀ u ∈ a.trees, isRegistration id u = false := fun a ha =>
    (hl.fits a ((List.mem_append.1 ha).elim (List.mem_append_left _)
      fun ha => List.mem_append_right _ (List.mem_cons_of_mem k ha))).isRegistration_eq_false
        (hothers a ha)
  have hbefore : ∀ u ∈ f ++ Head.Assets.trees (left.filter (Head.isFresh (Head.presentKeys f))),
      isBootstrap globalName id u = false := fun u hu => by
    rcases List.mem_append.1 hu with hu | hu
    · exact Bool.eq_false_iff.2 fun h => hf u hu (.inr h)
    · obtain ⟨a, ha, hua⟩ := List.mem_flatMap.1 hu
      exact hleft a (List.mem_of_mem_filter ha) u hua
  refine ⟨_, t, _, hsplit, ht, fun u hu => ?_, hbefore, ?_⟩
  · rw [List.append_assoc, ← Head.Assets.trees_append, ← List.filter_append] at hu
    rcases List.mem_append.1 hu with hu | hu
    · exact Bool.eq_false_iff.2 fun h => hf u hu (.inl (key_of_isRegistration h))
    · obtain ⟨a, ha, hua⟩ := List.mem_flatMap.1 hu
      exact hnone a (List.mem_of_mem_filter ha) u hua
  · have hcount := congrArg (List.countP (isBootstrap globalName id)) hsplit
    rw [List.countP_append, List.countP_append, List.countP_cons,
      Head.count_fresh _ _ hl.keyed,
      List.countP_eq_zero.2 fun u hu h => hf u hu (.inr h),
      List.countP_eq_zero.2 fun u hu => Bool.eq_false_iff.1 (hbefore u hu), htboot] at hcount
    simpa using hcount.symm

end Behavior

/-! ### The assets of a page are in order -/

namespace Renderer

open Behavior Fingerprint

variable {r : Renderer} {uri v : String} {component : Component} {data : Data}

/-- The component brings a behavior: its script compiles to something. -/
def Behaves (r : Renderer) (component : Component) : Prop :=
  ∃ compiled, component.script.bind r.plugins.compile = some compiled ∧
    isAllBlank compiled = false

instance (component : Component) : Decidable (r.Behaves component) :=
  decidable_of_iff ((component.script.bind r.plugins.compile).any (!isAllBlank ·) = true) <| by
    rw [Option.any_eq_true, Behaves]
    simp only [Bool.not_eq_true']

/-- No two components of the library have one name. -/
def NamedApart (r : Renderer) : Prop :=
  ∀ u v componentU componentV, r.library u = .ok componentU → r.library v = .ok componentV →
    componentId u = componentId v → u = v

/-- A render brings nothing for its behavior, or a registration and a bootstrap of its component. -/
theorem behavior_cases (r : Renderer) (uri : String) (component : Component) (data : Data) :
    (r.behavior uri component data = [] ∧ ¬r.Behaves component) ∨
      ∃ compiled, r.behavior uri component data =
        [registration r.config.enhancementGlobal (componentId uri) compiled,
          bootstrap r.config.enhancementGlobal (componentId uri) data] := by
  rw [behavior, Behaves]
  rcases component.script.bind r.plugins.compile with _ | compiled
  · exact .inl ⟨rfl, fun ⟨_, h, _⟩ => nomatch h⟩
  · rcases hblank : isAllBlank compiled
    · exact .inr ⟨compiled, by simp [hblank]⟩
    · refine .inl ⟨by simp [hblank], fun ⟨other, h, hother⟩ => ?_⟩
      rw [← Option.some.inj h, hblank] at hother
      cases hother

variable (hglobal : Unclosing r.config.enhancementGlobal.toList)

include hglobal

/-- What a render brings for its behavior, if it brings anything, is in order. -/
theorem orderly_behavior : Orderly r.config.enhancementGlobal (componentId v)
    (r.behavior uri component data) := by
  rcases behavior_cases r uri component data with ⟨h, -⟩ | ⟨compiled, h⟩ <;> rw [h]
  · exact orderly_nil
  · exact orderly_scripts hglobal (isAlphanum_componentId v) (isAlphanum_componentId uri)

/-- A render brings one bootstrap for its own component, and none for any other. -/
theorem count_behavior {own : Component} (hnames : r.NamedApart) (hv : r.library v = .ok own)
    (hown : r.Behaves own) (hcomponent : r.library uri = .ok component) :
    (r.behavior uri component data).trees.countP
      (isBootstrap r.config.enhancementGlobal (componentId v)) = if uri == v then 1 else 0 := by
  rcases behavior_cases r uri component data with ⟨h, hnone⟩ | ⟨compiled, h⟩ <;> rw [h]
  · have hne : uri ≠ v := by
      rintro rfl
      rw [hv] at hcomponent
      exact hnone (Except.ok.inj hcomponent ▸ hown)
    rw [beq_false_of_ne hne]
    rfl
  · have hsame : componentId v = componentId uri ↔ (uri == v) = true := by
      rw [beq_iff_eq]
      exact ⟨fun h => (hnames v uri own component hv hcomponent h).symm, fun h => h ▸ rfl⟩
    rw [count_scripts hglobal (isAlphanum_componentId v) (isAlphanum_componentId uri)]
    simp only [hsame]

end Renderer

namespace Composition

open Behavior Fingerprint

variable {r : Renderer} {c : Composition} {v : String}

/-- Nothing but behavior scripts brings a page what has the identity of a component's registration
or runs the component's behavior. -/
structure Unconcerned (r : Renderer) (id : String) (c : Composition) : Prop where
  /-- what the page has for its head by itself -/
  residents : ∀ t ∈ Head.residents c.nodes, ¬Concerns r.config.enhancementGlobal id t
  /-- what the documents below bring -/
  collected : ∀ m ∈ c.descendants, ∀ a ∈ m.collected, Foreign r.config.enhancementGlobal id a
  /-- the stylesheet that is generated -/
  style : ∀ a ∈ r.style c.component c.nodes, Foreign r.config.enhancementGlobal id a

instance (id : String) : Decidable (c.Unconcerned r id) :=
  decidable_of_iff ((∀ t ∈ Head.residents c.nodes, ¬Concerns r.config.enhancementGlobal id t) ∧
      (∀ m ∈ c.descendants, ∀ a ∈ m.collected, Foreign r.config.enhancementGlobal id a) ∧
      ∀ a ∈ r.style c.component c.nodes, Foreign r.config.enhancementGlobal id a)
    ⟨fun ⟨h₁, h₂, h₃⟩ => ⟨h₁, h₂, h₃⟩, fun ⟨h₁, h₂, h₃⟩ => ⟨h₁, h₂, h₃⟩⟩

variable (hglobal : Unclosing r.config.enhancementGlobal.toList)
  (hc : c.Unconcerned r (componentId v))

include hglobal hc

/-- The assets of a page that is not concerned otherwise are in order. -/
theorem Unconcerned.orderly : Orderly r.config.enhancementGlobal (componentId v) (c.assets r) := by
  rw [assets_eq]
  refine ((gather_induction orderly_nil (fun _ _ => Orderly.extend) orderly_nil fun m hm =>
    ⟨orderly_of_foreign (hc.collected m hm), Renderer.orderly_behavior hglobal⟩).extend ?_).extend
      (orderly_of_foreign hc.style)
  exact Renderer.orderly_behavior hglobal

/-- **A page gets one bootstrap of a component for each of its renders.** -/
theorem Unconcerned.count_assets {own : Component} (hnames : r.NamedApart)
    (hv : r.library v = .ok own) (hown : r.Behaves own) (hcomposed : r.Composed c) :
    (c.assets r).trees.countP (isBootstrap r.config.enhancementGlobal (componentId v)) =
      c.all.countP (·.uri == v) := by
  have hbehavior : ∀ m ∈ c.all, (m.behavior r).trees.countP
      (isBootstrap r.config.enhancementGlobal (componentId v)) =
        if m.uri == v then 1 else 0 := fun m hm =>
    Renderer.count_behavior hglobal hnames hv hown (hcomposed m hm)
  rw [all_eq, List.forall_mem_cons] at hbehavior
  have hweight : c.descendants.map
      (weight r (isBootstrap r.config.enhancementGlobal (componentId v))) =
        c.descendants.map fun m => if m.uri == v then 1 else 0 :=
    List.map_congr_left fun m hm => by
      rw [weight, count_of_foreign (hc.collected m hm), hbehavior.2 m hm, Nat.zero_add]
  have hsum : ∀ cs : List Composition,
      (cs.map fun m => if m.uri == v then 1 else 0).sum = cs.countP (·.uri == v) := fun cs => by
    induction cs with
    | nil => rfl
    | cons m cs ih => rw [List.map_cons, List.sum_cons, List.countP_cons, ih, Nat.add_comm]
  have hscripts : ∀ m : Composition,
      Orderly r.config.enhancementGlobal (componentId v) (m.behavior r) := fun m =>
    Renderer.orderly_behavior hglobal
  rw [Composition.count_assets (fun m hm => ⟨(orderly_of_foreign (hc.collected m hm)).keyed,
      (hscripts m).keyed⟩) (hscripts c).keyed (orderly_of_foreign hc.style).keyed, hweight, hsum,
    hbehavior.1, count_of_foreign hc.style, all_eq, List.countP_cons, Nat.add_zero]

end Composition

namespace Renderer

open Behavior Fingerprint

/-- **One registration for each component, one bootstrap for each render.**  After any renders with
the same cache, let a page be rendered whose components have different names.  If nothing but
behavior scripts brings it what has the identity of a component's registration or runs the
component's behavior, then its head has exactly one registration of the component, and behind it
exactly as many bootstraps as the page has renders of the component, at whatever depth. -/
theorem registered_once (r : Renderer) (history : List Earlier) (uri : String)
    (custom : Option Data) {html : String}
    (hglobal : ¬['<', '/'] <:+: r.config.enhancementGlobal.toList) (hnames : r.NamedApart)
    (hclear : CollisionFree (r.library.streams
      (r.render uri custom (r.after history {})).2.loads))
    (h : (r.render uri custom (r.after history {})).1 = .ok html) :
    ∃ rendered made, r.compose (r.config.maxDepth + 1) uri custom .root = .ok (rendered, made) ∧
      html = Forest.serialize (made.page r) ∧
      ∀ m ∈ made.all, r.Behaves m.component → made.Unconcerned r (componentId m.uri) →
        ∃ before registration after,
          Head.childrenOf? (made.page r) "head" = some (before ++ registration :: after) ∧
          isRegistration (componentId m.uri) registration = true ∧
          (∀ t ∈ before ++ after, isRegistration (componentId m.uri) t = false) ∧
          (∀ t ∈ before,
            isBootstrap r.config.enhancementGlobal (componentId m.uri) t = false) ∧
          after.countP (isBootstrap r.config.enhancementGlobal (componentId m.uri)) =
            made.all.countP (·.uri == m.uri) := by
  obtain ⟨rendered, made, hmade, hhtml⟩ := r.render_composed history uri custom hclear h
  obtain ⟨hcomposed, hmarkup, hfault⟩ := compose_spec hmade
  refine ⟨rendered, made, hmade, hhtml.trans hmarkup, fun m hm hbehaves hother => ?_⟩
  have hglobal' := unclosing_iff.2 hglobal
  have hcount := hother.count_assets hglobal' hnames (hcomposed m hm) hbehaves hcomposed
  have hpos : 0 < (made.assets r).trees.countP
      (isBootstrap r.config.enhancementGlobal (componentId m.uri)) :=
    hcount ▸ List.countP_pos_iff.2 ⟨m, hm, beq_self_eq_true m.uri⟩
  have hne : made.assets r ≠ [] := fun hnil => by
    rw [hnil] at hpos
    cases hpos
  obtain ⟨before, registration, after, hhead, hregistration, hone, hbefore, hafter⟩ :=
    (hother.orderly hglobal').head (made.distinct_assets r) hother.residents hpos
  refine ⟨before, registration, after, ?_, hregistration, hone, hbefore, hafter.trans hcount⟩
  rw [Composition.page, Head.childrenOf?_merge (made.distinct_assets r) hne hfault, hhead]

/-- The hypotheses are satisfiable: a dot with a behavior is in a page and in its card, and the card
comes from the cache. -/
theorem registered_once_page :
    let imports : ImportTable := [("x-card", "card"), ("x-dot", "dot")]
    let registry : Registry := { components := [
      ("page", { settings := { imports }, template := "<x-card></x-card><x-dot></x-dot>" }),
      ("card", { settings := { imports }, template := "<x-dot></x-dot>" }),
      ("dot", { template := "<b></b>", script := some "f()" })] }
    let r : Renderer := ⟨registry.library, {}, {}⟩
    let history : List Earlier := [⟨32, true, "card", none, .descendant⟩]
    ∃ html rendered made, (r.render "page" none (r.after history {})).1 = .ok html ∧
      r.compose 33 "page" none .root = .ok (rendered, made) ∧
      html = Forest.serialize (made.page r) ∧
      ∃ before registration after,
        Head.childrenOf? (made.page r) "head" = some (before ++ registration :: after) ∧
        isRegistration (componentId "dot") registration = true ∧
        (∀ t ∈ before ++ after, isRegistration (componentId "dot") t = false) ∧
        after.countP (isBootstrap "__components" (componentId "dot")) = 2 := by
  intro imports registry r history
  have hnames : r.NamedApart := by
    have hknown : ∀ uri component, r.library uri = .ok component →
        uri ∈ registry.components.map (·.1) := fun uri component h =>
      List.mem_map.2 ⟨_, Registry.mem_of_library h, rfl⟩
    have hapart : ∀ u ∈ ["page", "card", "dot"], ∀ v ∈ ["page", "card", "dot"],
        componentId u = componentId v → u = v := by decide +kernel
    exact fun u v _ _ hu hv => hapart u (hknown u _ hu) v (hknown v _ hv)
  obtain ⟨hsome, hclear⟩ : (r.render "page" none (r.after history {})).1.toOption.isSome = true ∧
      CollisionFree (r.library.streams (r.render "page" none (r.after history {})).2.loads) := by
    decide +kernel
  have hcheck : (r.compose 33 "page" none .root).toOption.any (fun x => decide (
      x.2.Unconcerned r (componentId "dot") ∧ x.2.all.countP (·.uri == "dot") = 2 ∧
        ∃ m ∈ x.2.all, m.uri = "dot" ∧ r.Behaves m.component)) = true := by
    decide +kernel
  obtain ⟨x, hx, hother, htwice, m, hm, huri, hbehaves⟩ := exists_ok_of_any hcheck
  rcases h : (r.render "page" none (r.after history {})).1 with error | html <;> rw [h] at hsome
  · cases hsome
  obtain ⟨rendered, made, hmade, hhtml, honce⟩ :=
    registered_once r history "page" none (by decide) hnames hclear h
  obtain rfl := Except.ok.inj (hmade.symm.trans hx)
  obtain ⟨before, registration, after, hhead, hregistration, hone, -, hafter⟩ :=
    honce m hm hbehaves (huri ▸ hother)
  rw [huri] at hregistration hone hafter
  exact ⟨html, rendered, made, rfl, hx, hhtml, before, registration, after, hhead,
    hregistration, hone, hafter.trans htwice⟩

/-- That no script has the `id` of a registration is not enough.  A page whose script has no `id`,
and the name of the page's registration for its `src`, gets a bootstrap and no registration. -/
theorem registration_left_out :
    let page : Component :=
      { template := "<script src=\"component-3660315a9af3\"></script>", script := some "f()" }
    let r : Renderer := ⟨Registry.library { components := [("page", page)] }, {}, {}⟩
    r.Behaves page ∧ r.NamedApart ∧ ¬['<', '/'] <:+: r.config.enhancementGlobal.toList ∧
      (∃ trees, parse page.template = .ok trees ∧ ∀ t ∈ Forest.preorder trees,
        isRegistration (componentId "page") t = false ∧
          isBootstrap "__components" (componentId "page") t = false) ∧
      ∃ html rendered made head, (r.render "page" none {}).1 = .ok html ∧
        r.compose 33 "page" none .root = .ok (rendered, made) ∧
        html = Forest.serialize (made.page r) ∧ made.all.countP (·.uri == "page") = 1 ∧
        Head.childrenOf? (made.page r) "head" = some head ∧
        head.countP (isRegistration (componentId "page")) = 0 ∧
        head.countP (isBootstrap "__components" (componentId "page")) = 1 := by
  intro page r
  have hid : componentId "page" = "3660315a9af3" := by
    rw [componentId_eq]
    exact congrArg String.ofList (show _ =
      ['3', '6', '6', '0', '3', '1', '5', 'a', '9', 'a', 'f', '3'] by decide +kernel)
  rw [hid]
  have hnames : r.NamedApart := by
    have hknown : ∀ uri component, r.library uri = .ok component → uri = "page" :=
      fun uri component h => by
        obtain ⟨rfl, -⟩ := Prod.mk.inj (List.mem_singleton.1 (Registry.mem_of_library h))
        rfl
    exact fun u v _ _ hu hv _ => (hknown u _ hu).trans (hknown v _ hv).symm
  have htemplate : (parse page.template).toOption.any (fun trees => decide (
      ∀ t ∈ Forest.preorder trees, isRegistration "3660315a9af3" t = false ∧
        isBootstrap "__components" "3660315a9af3" t = false)) = true := by
    decide +kernel
  have hcheck : (r.compose 33 "page" none .root).toOption.any (fun x => decide (
      (r.render "page" none {}).1 = .ok (Forest.serialize (x.2.page r)) ∧
        x.2.all.countP (·.uri == "page") = 1 ∧
        (Head.childrenOf? (x.2.page r) "head").any fun head => decide (
          head.countP (isRegistration "3660315a9af3") = 0 ∧
            head.countP (isBootstrap "__components" "3660315a9af3") = 1))) = true := by
    decide +kernel
  obtain ⟨⟨rendered, made⟩, hmade, hhtml, hone, hhead⟩ := exists_ok_of_any hcheck
  obtain ⟨head, hhead, hcounts⟩ := (Option.any_eq_true _ _).1 hhead
  obtain ⟨hregistration, hbootstrap⟩ := of_decide_eq_true hcounts
  exact ⟨by decide +kernel, hnames, by decide, exists_ok_of_any htemplate, _, rendered, made, head,
    hhtml, hmade, rfl, hone, hhead, hregistration, hbootstrap⟩

end Renderer
end HtmlCompose
