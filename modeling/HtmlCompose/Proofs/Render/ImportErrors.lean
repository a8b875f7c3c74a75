/-
# What import errors tell

Two errors are about the imports themselves: a component is reached from itself, or below
more components than the limit allows.  Either comes from a live check or from a chain that
a cached result has kept from another render.  Both tell the truth (`import_errors_truthful`):

| error | what it tells |
| --- | --- |
| cycle | a chain of imports from the component rendered, through different components, back to one of them |
| depth | the limit, and a component with one more than that before it on such a chain |

A component that is about to be entered stands at the end of a chain from the start
(`Approached`), and so does the last component of the first chain that is refused
(`Approached.extend`).  So both checks come down to one (`Approached.truthful`).

A higher limit changes no outcome but this error: as long as it does not come up, the
renders under both limits make the same steps with any cache (`renderComponent_raised`).
-/
import HtmlCompose.Proofs.Render.Chains

namespace HtmlCompose

open Markup Resolve

/-- A chain of imports from a component back to one that it has gone through. -/
structure Library.Cyclic (library : Library) (uri : String) (chain : List String) : Prop where
  head : chain.head? = some uri
  linked : chain.IsChain library.Imports
  distinct : chain.dropLast.Nodup
  back : ∃ last, chain.getLast? = some last ∧ chain.dropLast.count last = 1

/-- A chain of imports through different components leads from one component to another one, which
stands below a number of components there. -/
def Library.ReachedUnder (library : Library) (uri : String) (ancestors : Nat) (target : String) :
    Prop :=
  ∃ above : List String, above.length = ancestors ∧ above.head? = some uri ∧
    (above ++ [target]).IsChain library.Imports ∧ (above ++ [target]).Nodup

namespace RenderError

/-- What an error tells about the imports from a component is true under a limit. -/
def Truthful (library : Library) (limit : Nat) (start : String) : RenderError → Prop
  | cyclicImport chain => library.Cyclic start chain
  | depthExceeded target reported =>
    reported = limit ∧ library.ReachedUnder start (limit + 1) target
  | _ => True

/-- The error says that a component is too far down. -/
def IsDepth (error : RenderError) : Prop :=
  ∃ target limit, error = depthExceeded target limit

end RenderError

namespace Renderer

variable {library : Library} {limit : Nat} {start uri : String} {stack : List String}

/-! ### Errors at the end of a chain -/

/-- A component is about to be entered at the end of a chain of imports. -/
structure Approached (library : Library) (limit : Nat) (start : String) (stack : List String)
    (uri : String) : Prop where
  head : (stack ++ [uri]).head? = some start
  linked : (stack ++ [uri]).IsChain library.Imports
  nodup : stack.Nodup
  length : stack.length ≤ limit + 1

/-- A component that may not be entered is refused with a true error. -/
theorem Approached.truthful (h : Approached library limit start stack uri) {error : RenderError}
    (herror : refuse limit stack [uri] = some error) : error.Truthful library limit start := by
  rw [refuse_singleton] at herror
  split_ifs at herror with hcycle hdepth
  · obtain rfl := Option.some.inj herror
    refine ⟨h.head, h.linked, ?_, uri, List.getLast?_concat, ?_⟩ <;> rw [List.dropLast_concat]
    · exact h.nodup
    · exact List.count_eq_one_of_mem h.nodup hcycle
  · obtain rfl := Option.some.inj herror
    refine ⟨rfl, stack, ?_, ?_, h.linked, ?_⟩
    · have := h.length
      omega
    · have hne : stack ≠ [] := List.ne_nil_of_length_pos (by omega)
      rw [← h.head, List.head?_append_of_ne_nil _ hne]
    · rw [List.nodup_append]
      refine ⟨h.nodup, List.nodup_singleton uri, fun a ha b hb hab => hcycle ?_⟩
      rwa [← List.mem_singleton.1 hb, ← hab]

/-- What an entered component imports is about to be entered. -/
theorem Approached.enter (h : Approached library limit start stack uri)
    (huri : refuse limit stack [uri] = none) {child : String} (hchild : library.Imports uri child) :
    Approached library limit start (stack ++ [uri]) child := by
  obtain ⟨hnew, hdepth⟩ := refuse_eq_none_iff.1 huri
  refine ⟨?_, ?_, ?_, ?_⟩
  · rw [List.head?_append_of_ne_nil _ (by simp), h.head]
  · rw [List.append_assoc, List.singleton_append, List.isChain_split]
    exact ⟨h.linked, List.isChain_pair.2 hchild⟩
  · exact (List.nodup_append_comm.trans List.nodup_cons).2 ⟨hnew, h.nodup⟩
  · rw [List.length_append, List.length_singleton]
    omega

/-- So is the last component of a chain, if all that the chain goes through may be entered. -/
theorem Approached.extend (h : Approached library limit start stack uri)
    (huri : refuse limit stack [uri] = none) {through : List String} {last : String}
    (hlinked : (uri :: (through ++ [last])).IsChain library.Imports)
    (hnodup : (uri :: (through ++ [last])).Nodup)
    (hthrough : through = [] ∨ Free limit (stack ++ [uri]) through) :
    Approached library limit start (stack ++ [uri] ++ through) last := by
  obtain ⟨hnew, hdepth⟩ := refuse_eq_none_iff.1 huri
  have hapart : ∀ u ∈ through, u ∉ stack ++ [uri] := by
    rcases hthrough with rfl | hfree
    · exact fun u hu => absurd hu List.not_mem_nil
    · exact hfree.apart
  refine ⟨?_, ?_, ?_, ?_⟩
  · rw [List.append_assoc, List.head?_append_of_ne_nil _ (by simp), h.head]
  · rw [List.append_assoc, List.append_assoc, List.singleton_append, List.isChain_split]
    exact ⟨h.linked, hlinked⟩
  · have hstack : (stack ++ [uri]).Nodup :=
      (List.nodup_append_comm.trans List.nodup_cons).2 ⟨hnew, h.nodup⟩
    rw [List.nodup_cons, List.nodup_append] at hnodup
    rw [List.nodup_append]
    exact ⟨hstack, hnodup.2.1, fun a ha b hb hab => hapart b hb (hab ▸ ha)⟩
  -- what the chain goes through may stand here as well, and that bounds its length
  · rcases hthrough with rfl | hfree
    · simpa using hdepth
    rcases List.eq_nil_or_concat through with rfl | ⟨init, u, rfl⟩
    · simpa using hdepth
    have hadmitted := hfree.admitted
    rw [List.nodup_cons, List.concat_eq_append, List.nodup_append, List.nodup_append] at hnodup
    have hu : u ∉ init := fun hu => hnodup.2.1.2.2 u hu u (List.mem_singleton_self u) rfl
    rw [List.concat_eq_append] at hadmitted ⊢
    rw [refuse_concat _ _ hu, refuse_eq_none_iff] at hadmitted
    simp only [List.length_append, List.length_singleton] at hadmitted ⊢
    omega

/-! ### All errors -/

/-- What comes out of a render accounts for its imports: the chains of a result are chains of
imports, and an error tells the truth about the chain to the component. -/
def Accounted (library : Library) (limit : Nat) (stack : List String) (uri : String) :
    Except RenderError Rendered → Prop
  | .ok rendered => Chained library uri rendered.importPaths
  | .error error => ∀ start, Approached library limit start stack uri →
    error.Truthful library limit start

/-- The checks on a cached result account for its imports. -/
theorem accounted_found {rendered : Rendered} (h : Chained library uri rendered.importPaths)
    (huri : refuse limit stack [uri] = none) :
    Accounted library limit stack uri (moved limit (stack ++ [uri]) rendered) := by
  rw [moved]
  rcases hrefused : rendered.importPaths.findSome? (refuse limit (stack ++ [uri])) with _ | error
  · exact h
  intro start happroached
  obtain ⟨through, last, hmem, hthrough, hlast⟩ :=
    h.opened.refused (fun q hq => absurd hq List.not_mem_nil) hrefused
  have hnodup := h.nodup _ hmem
  rw [refuse_concat] at hlast
  · exact (happroached.extend huri (h.linked _ hmem) hnodup hthrough).truthful hlast
  · rw [List.nodup_cons, List.nodup_append] at hnodup
    exact fun hmem => hnodup.2.2.2 last hmem last (List.mem_singleton_self last) rfl

/-- A render that fails in the end has failed to resolve something, or its markup never ends. -/
theorem conclude_eq_error_cases {ρ : Type} {r : Renderer} {component : Component} {data : Data}
    {mode : RenderMode} {resolved : Resolved ρ} {error : RenderError}
    (h : r.conclude uri component data mode resolved = .error error) :
    resolved.failure = some error ∨ ∃ fault, error = .markup uri fault := by
  unfold conclude at h
  rcases hfailure : resolved.failure with _ | failure <;> rw [hfailure] at h
  · cases mode with
    | root =>
      simp only [finishRoot] at h
      split at h
      · exact .inr ⟨_, (Except.error.inj h).symm⟩
      · cases h
    | descendant => cases h
  · exact .inl (congrArg some (Except.error.inj h))

/-- A component asks for its imports only, and it stops by itself only where a payload holds no JSON
or markup never ends. -/
theorem questions_spec {component : Component} {data : Data} {d : Dialogue}
    (hload : library uri = .ok component) (h : questions uri component data = .ok d) :
    d.AsksOnly (library.Imports uri) ∧ ∀ {E : RenderError → Prop},
      (∀ name, E (.invalidPayload uri name)) → (∀ child fault, E (.markup child fault)) →
        d.StopsOnly E := by
  refine ⟨?_, fun hinvalid hmalformed => ?_⟩
  · obtain ⟨template, -, hasks⟩ := asksOnly_questions h
    exact hasks.imp fun child _ ⟨tag, _, htag⟩ => ⟨component, hload, tag, htag⟩
  · unfold questions at h
    rcases hparse : Document.parse component.template with fault | template <;> rw [hparse] at h
    · cases h
    obtain rfl := Except.ok.inj h
    exact Dialogue.stopsOnly_ofForest uri _ hinvalid hmalformed _

/-- A component whose questions cannot be told has a template that never ends. -/
theorem questions_eq_error {component : Component} {data : Data} {error : RenderError}
    (h : questions uri component data = .error error) : ∃ fault, error = .markup uri fault := by
  unfold questions at h
  rcases hparse : Document.parse component.template with fault | template <;> rw [hparse] at h
  · exact ⟨fault, (Except.error.inj h).symm⟩
  · cases h

/-- Renders below some components keep these, give only what may stand there, and account for their
imports, with a cache whose chains are chains of imports. -/
structure Accounting (r : Renderer) (stack : List String) (child : RenderChild Run) : Prop where
  ancestry : ∀ uri data s, (child uri data s).2.ancestry = s.ancestry
  admitted : ∀ uri data s rendered, (child uri data s).1 = .ok rendered →
    ∀ path ∈ [uri] :: rendered.importPaths.map (uri :: ·),
      refuse r.config.maxDepth s.ancestry path = none
  accounted : ∀ uri data s, s.ancestry = stack → Traced r.library s.cache →
    Accounted r.library r.config.maxDepth stack uri (child uri data s).1 ∧
      Traced r.library (child uri data s).2.cache

/-- What a component asks for accounts for its imports, if the renders below do. -/
theorem Accounting.questions {r : Renderer} {child : RenderChild Run}
    (h : r.Accounting (stack ++ [uri]) child)
    (huri : refuse r.config.maxDepth stack [uri] = none) {component : Component} {data : Data}
    {d : Dialogue} (hload : r.library uri = .ok component)
    (hd : Renderer.questions uri component data = .ok d) {run : Run}
    (hrun : run.ancestry = stack ++ [uri]) (htraced : Traced r.library run.cache) :
    let resolved := d.run child ⟨run, [], []⟩
    Traced r.library resolved.after.run.cache ∧ Chained r.library uri resolved.after.paths ∧
      ∀ error, resolved.failure = some error → ∀ start,
        Approached r.library r.config.maxDepth start stack uri →
          error.Truthful r.library r.config.maxDepth start := by
  obtain ⟨hasks, hstops⟩ := questions_spec hload hd
  let Inv (p : Progress Run) : Prop := p.run.ancestry = stack ++ [uri] ∧
    Traced r.library p.run.cache ∧ Chained r.library uri p.paths
  let Told (error : RenderError) : Prop := ∀ start,
    Approached r.library r.config.maxDepth start stack uri →
      error.Truthful r.library r.config.maxDepth start
  have hok : ∀ child' data p answer s, r.library.Imports uri child' → Inv p →
      child child' data p.run = (.ok answer, s) → Inv ({ p with run := s }.collect child' answer) := by
    rintro child' data p answer s himports ⟨hp, htraced, hchained⟩ hanswer
    obtain ⟨hbelow, htraced'⟩ := h.accounted child' data p.run hp htraced
    have hkept := h.ancestry child' data p.run
    have hadmitted := h.admitted child' data p.run answer (by rw [hanswer])
    rw [hanswer] at hbelow htraced' hkept
    rw [hp] at hadmitted
    exact ⟨hkept.trans hp, htraced', hchained.collect himports hbelow
      (hbelow.apart hadmitted (List.mem_append_right _ (List.mem_singleton_self uri)))⟩
  have herror : ∀ child' data p error s, r.library.Imports uri child' → Inv p →
      child child' data p.run = (.error error, s) → Told error ∧ Inv { p with run := s } := by
    rintro child' data p error s himports ⟨hp, htraced, hchained⟩ hanswer
    obtain ⟨htruth, htraced'⟩ := h.accounted child' data p.run hp htraced
    have hkept := h.ancestry child' data p.run
    rw [hanswer] at htruth htraced' hkept
    exact ⟨fun start happroached => htruth start (happroached.enter huri himports),
      hkept.trans hp, htraced', hchained⟩
  obtain ⟨⟨-, htraced', hchained⟩, hfailed⟩ := Dialogue.run_accounts Inv hok herror hasks
    (hstops (fun _ _ _ => trivial) fun _ _ _ _ => trivial) ⟨run, [], []⟩
    ⟨hrun, htraced, chained_nil r.library uri⟩
  exact ⟨htraced', hchained, hfailed⟩

/-- An entered render accounts for its imports, if the renders below do. -/
theorem Accounting.entered {r : Renderer} {child : RenderChild Run}
    (h : r.Accounting (stack ++ [uri]) child)
    (huri : refuse r.config.maxDepth stack [uri] = none) (custom : Option Data)
    (mode : RenderMode) {run : Run} (hrun : run.ancestry = stack ++ [uri])
    (htraced : Traced r.library run.cache) :
    Accounted r.library r.config.maxDepth stack uri
        (r.renderEntered child uri custom mode run).1 ∧
      Traced r.library (r.renderEntered child uri custom mode run).2.cache := by
  simp only [renderEntered_eq, renderFresh_eq]
  rcases hload : r.library uri with error | component
  · exact ⟨fun _ _ => trivial, htraced⟩
  simp only
  rcases hhit : r.hit? uri component custom mode run.cache with _ | hit
  swap
  · have hchained : Chained r.library uri hit.importPaths := by
      unfold hit? at hhit
      split_ifs at hhit
      exact htraced _ hit hhit
    simp only [refusal?_eq, hrun]
    exact ⟨accounted_found hchained huri, htraced⟩
  rcases hd : Renderer.questions uri component (Context.merge component.settings custom) with
    error | d
  · obtain ⟨fault, rfl⟩ := questions_eq_error hd
    exact ⟨fun _ _ => trivial, htraced⟩
  simp only
  obtain ⟨htraced', hchained, hfailed⟩ := h.questions huri hload hd
    (show (noted run custom mode).ancestry = stack ++ [uri] from hrun) htraced
  rcases hconclude : r.conclude uri component (Context.merge component.settings custom) mode
    (d.run child ⟨noted run custom mode, [], []⟩) with error | rendered
  · refine ⟨fun start happroached => ?_, htraced'⟩
    rcases conclude_eq_error_cases hconclude with hfailure | ⟨fault, rfl⟩
    · exact hfailed error hfailure start happroached
    · trivial
  · rw [← (conclude_eq_ok hconclude).2] at hchained
    refine ⟨?_, htraced'.kept r hchained⟩
    rcases hgiven : (r.kept (key uri component custom mode) rendered _).1 with error | given
    · unfold kept at hgiven
      split_ifs at hgiven
    · exact htraced'.given hchained hgiven

/-- **Every render accounts for its imports**, with a cache whose chains are chains of imports. -/
theorem renderComponent_accounted (r : Renderer) (uri : String) (custom : Option Data)
    (mode : RenderMode) (run : Run) (htraced : Traced r.library run.cache) :
    Accounted r.library r.config.maxDepth run.ancestry uri
        (r.renderComponent uri custom mode run).1 ∧
      Traced r.library (r.renderComponent uri custom mode run).2.cache := by
  obtain ⟨stack, hstack⟩ : ∃ stack, run.ancestry = stack := ⟨_, rfl⟩
  induction stack using below_induction r.config.maxDepth generalizing uri custom mode run with
  | step stack ih =>
    rw [renderComponent_eq_refuse, hstack]
    rcases huri : refuse r.config.maxDepth stack [uri] with _ | error
    swap
    · exact ⟨fun start happroached => happroached.truthful huri, htraced⟩
    have hlimit := (refuse_eq_none_iff.1 huri).2
    have hbelow : r.Accounting (stack ++ [uri]) r.descend := {
      ancestry := fun child data s => r.renderComponent_ancestry child (some data) .descendant s
      admitted := fun child data s rendered hrendered =>
        refuse_through (renderComponent_ok hrendered).1 (renderComponent_admitted hrendered)
      accounted := fun child data s hs htraced =>
        hs ▸ ih hlimit uri child (some data) .descendant s htraced hs }
    exact hbelow.entered huri custom mode (by rw [← hstack]; rfl) htraced

/-! ### A higher limit -/

/-- A chain that is not too long under a limit is treated alike under a higher one. -/
theorem refuse_raised {limit' : Nat} (hlimit : limit ≤ limit') {path : List String}
    (h : ∀ error, refuse limit stack path = some error → ¬error.IsDepth) :
    refuse limit' stack path = refuse limit stack path := by
  unfold refuse at h ⊢
  rcases hlast : path.getLast? with _ | target <;> rw [hlast] at h
  · rfl
  simp only [Option.bind_some] at h ⊢
  by_cases hcycle : stack.contains target = true
  · rw [if_pos hcycle, if_pos hcycle]
  rw [if_neg hcycle] at h ⊢
  by_cases hlower : limit < stack.length + path.length - 1
  · rw [if_pos hlower] at h
    exact absurd ⟨target, limit, rfl⟩ (h _ rfl)
  · rw [if_neg hcycle, if_neg hlower, if_neg (by omega)]

/-- So are chains of which no first one is too long. -/
theorem findSome?_refuse_raised {limit' : Nat} (hlimit : limit ≤ limit')
    {paths : List (List String)}
    (h : ∀ error, paths.findSome? (refuse limit stack) = some error → ¬error.IsDepth) :
    paths.findSome? (refuse limit' stack) = paths.findSome? (refuse limit stack) := by
  induction paths with
  | nil => rfl
  | cons path rest ih =>
    rw [List.findSome?_cons] at h
    rw [List.findSome?_cons, List.findSome?_cons]
    rcases hpath : refuse limit stack path with _ | error <;> rw [hpath] at h
    · rw [refuse_raised hlimit (by simp [hpath]), hpath]
      exact ih h
    · rw [refuse_raised hlimit (by simpa [hpath] using h), hpath]

/-- An entered render makes the same steps under a higher limit, unless it fails for the limit, if
the renders below do. -/
theorem renderEntered_raised (r : Renderer) {limit' : Nat} (hlimit : limit ≤ limit')
    (cached : Bool) {child child' : RenderChild Run}
    (hchild : ∀ uri data s, s.ancestry = stack →
      (∀ error, (child uri data s).1 = .error error → ¬error.IsDepth) →
        child uri data s = child' uri data s)
    (hkeep : ∀ uri data s, (child uri data s).2.ancestry = s.ancestry)
    (uri : String) (custom : Option Data) (mode : RenderMode) {run : Run}
    (hrun : run.ancestry = stack)
    (h : ∀ error, ((r.tuned limit cached).renderEntered child uri custom mode run).1 =
      .error error → ¬error.IsDepth) :
    (r.tuned limit cached).renderEntered child uri custom mode run =
      (r.tuned limit' cached).renderEntered child' uri custom mode run := by
  have hhit : (r.tuned limit' cached).hit? = (r.tuned limit cached).hit? := rfl
  have hkept : (r.tuned limit' cached).kept = (r.tuned limit cached).kept := rfl
  simp only [renderEntered_eq, renderFresh_eq, tuned_library, tuned_conclude, refusal?_eq,
    tuned_maxDepth] at h
  simp only [renderEntered_eq, renderFresh_eq, tuned_library, tuned_conclude, refusal?_eq,
    tuned_maxDepth, hhit, hkept]
  rcases hload : r.library uri with error | component
  · rfl
  simp only [hload] at h ⊢
  rcases hfound : (r.tuned limit cached).hit? uri component custom mode run.cache with _ | hit
  swap
  · simp only [hfound] at h ⊢
    rw [findSome?_refuse_raised hlimit fun error herror => h error (by rw [herror]; rfl)]
  rcases hd : questions uri component (Context.merge component.settings custom) with error | d
  · rfl
  simp only [hfound, hd] at h ⊢
  have hsteps : d.run child ⟨noted run custom mode, [], []⟩ =
      d.run child' ⟨noted run custom mode, [], []⟩ :=
    d.run_congr_unless (·.ancestry = stack) RenderError.IsDepth hchild
      (fun uri data s hs => (hkeep uri data s).trans hs) ⟨noted run custom mode, [], []⟩ hrun
      fun error herror => h error (by rw [conclude_eq_error herror])
  rw [hsteps]

/-- **A higher limit changes nothing where no limit has come up.**  The render makes the same steps
with any cache. -/
theorem renderComponent_raised (r : Renderer) {limit limit' : Nat} (hlimit : limit ≤ limit')
    (cached : Bool) (uri : String) (custom : Option Data) (mode : RenderMode) (run : Run)
    (h : ∀ error, ((r.tuned limit cached).renderComponent uri custom mode run).1 = .error error →
      ¬error.IsDepth) :
    (r.tuned limit cached).renderComponent uri custom mode run =
      (r.tuned limit' cached).renderComponent uri custom mode run := by
  obtain ⟨stack, hstack⟩ : ∃ stack, run.ancestry = stack := ⟨_, rfl⟩
  induction stack using below_induction limit generalizing uri custom mode run with
  | step stack ih =>
    simp only [renderComponent_eq_refuse, tuned_maxDepth] at h ⊢
    rcases huri : refuse limit run.ancestry [uri] with _ | error
    swap
    · rw [refuse_raised hlimit (by simpa [huri] using h), huri]
    rw [refuse_raised hlimit (by simp [huri]), huri]
    rw [huri] at h
    -- both limits admit the component, so only the renders below may differ
    have hbelow : stack.length ≤ limit := hstack ▸ (refuse_eq_none_iff.1 huri).2
    have hentered : (r.tuned limit cached).renderEntered (r.tuned limit cached).descend uri custom
          mode (entered run uri) =
        (r.tuned limit' cached).renderEntered (r.tuned limit' cached).descend uri custom mode
          (entered run uri) := r.renderEntered_raised hlimit cached
      (fun child data s hs hchild => ih hbelow uri child (some data) .descendant s hchild hs)
      (fun child data s =>
        (r.tuned limit cached).renderComponent_ancestry child (some data) .descendant s)
      uri custom mode (by rw [← hstack]; rfl) h
    simp only [hentered]

/-! ### After any renders -/

/-- Any renders leave a cache whose chains are chains of imports. -/
theorem Traced.after {r : Renderer} {run : Run} (h : Traced r.library run.cache)
    (history : List Earlier) : Traced r.library (r.after history run).cache := by
  induction history generalizing run with
  | nil => exact h
  | cons e history ih =>
    exact ih ((r.tuned e.maxDepth e.renderCache).renderComponent_accounted e.uri e.custom e.mode
      { run with ancestry := [] } h).2

/-- **Import errors tell the truth, and a higher limit only spares the depth error.**  After any
renders with the same cache, under any limits, a cycle that is reported is a chain of imports from
the component rendered back to one that it has gone through once.  A depth error reports the limit,
and a component that stands below one more than that on such a chain.  What does not fail for its
depth under one limit comes out the same under every higher one. -/
theorem import_errors_truthful (r : Renderer) (history : List Earlier) (uri : String)
    (custom : Option Data) (cached : Bool) :
    let outcome (mode : RenderMode) (limit : Nat) : Except RenderError Rendered :=
      ((r.tuned limit cached).renderComponent uri custom mode (r.after history {})).1
    (∀ limit, ((r.tuned limit cached).render uri custom (r.after history {})).1 =
        (outcome .root limit).map (·.markup)) ∧
      ∀ mode limit,
        (∀ chain, outcome mode limit = .error (.cyclicImport chain) →
          r.library.Cyclic uri chain) ∧
        (∀ target reported, outcome mode limit = .error (.depthExceeded target reported) →
          reported = limit ∧ r.library.ReachedUnder uri (limit + 1) target) ∧
        ∀ limit', limit ≤ limit' →
          (∀ target reported, outcome mode limit ≠ .error (.depthExceeded target reported)) →
            outcome mode limit' = outcome mode limit := by
  intro outcome
  have hfresh : (r.after history {}).ancestry = [] := r.after_ancestry history {} rfl
  have htraced : Traced r.library (r.after history {}).cache :=
    Traced.after (fun key rendered h => by cases h) history
  refine ⟨fun limit => by simp only [outcome, render, fresh_eq hfresh], fun mode limit => ?_⟩
  have htruth : ∀ error, outcome mode limit = .error error →
      error.Truthful r.library limit uri := by
    intro error herror
    obtain ⟨haccounted, -⟩ := (r.tuned limit cached).renderComponent_accounted uri custom mode
      (r.after history {}) htraced
    simp only [tuned_library, tuned_maxDepth, hfresh] at haccounted
    rw [show ((r.tuned limit cached).renderComponent uri custom mode (r.after history {})).1 =
      .error error from herror] at haccounted
    exact haccounted uri ⟨rfl, List.isChain_singleton uri, List.nodup_nil, Nat.zero_le _⟩
  refine ⟨fun chain h => htruth _ h, fun target reported h => htruth _ h, ?_⟩
  intro limit' hlimit hspared
  refine (congrArg Prod.fst (r.renderComponent_raised hlimit cached uri custom mode _ ?_)).symm
  rintro error herror ⟨target, reported, rfl⟩
  exact hspared target reported herror

/-- The hypotheses are satisfiable: a page loops through a component that an earlier render has left
in the cache without the loop.  The cycle is found where the cached result would stand; a low limit
is reached before; and what has no loop comes out the same under any limit that it fits. -/
theorem import_errors_truthful_loop :
    let registry : Registry := { components := [
      ("a", { settings := { imports := [("x-b", "b")] }, template := "<x-b use-if=\"loop\"></x-b>" }),
      ("b", { settings := { imports := [("x-a", "a")] }, template := "<x-a></x-a>" }),
      ("page", { settings := { imports := [("x-a", "a")] }, template := "<x-a loop=\"1\"></x-a>" }),
      ("warm", { settings := { imports := [("x-b", "b")] }, template := "<x-b></x-b>" })] }
    let r : Renderer := ⟨registry.library, {}, {}⟩
    let warm : Run := r.after [⟨32, true, "warm", none, .root⟩] {}
    r.library.Cyclic "page" ["page", "a", "b", "a"] ∧ r.library.ReachedUnder "page" 2 "b" ∧
      ((r.tuned 9 true).renderComponent "warm" none .root warm).1 =
        ((r.tuned 2 true).renderComponent "warm" none .root warm).1 := by
  intro registry r warm
  obtain ⟨-, hpage⟩ := import_errors_truthful r [⟨32, true, "warm", none, .root⟩] "page" none true
  obtain ⟨-, hwarm⟩ := import_errors_truthful r [⟨32, true, "warm", none, .root⟩] "warm" none true
  refine ⟨(hpage .root 3).1 _ ?_, ((hpage .root 1).2.1 "b" 1 ?_).2,
    (hwarm .root 2).2.2 9 (by decide) ?_⟩
  · decide +kernel
  · decide +kernel
  · have hsome : ((r.tuned 2 true).renderComponent "warm" none .root warm).1.toOption.isSome =
        true := by decide +kernel
    intro target reported herror
    rw [show ((r.tuned 2 true).renderComponent "warm" none .root warm).1 = _ from herror] at hsome
    cases hsome

end Renderer
end HtmlCompose
