/-
# Every render ends

Three recursions go through each other in a render: directives make copies while they
are carried out, resolving goes on with content that has just found a slot, and imports
are rendered in turn.  `Derives` tells them all by rules, each one step of a render, and
with no bound on anything: a render with a given outcome is a finite derivation, and a
render that never ended would have none.

| judgment | given |
| --- | --- |
| `component` | a component to render, below the stack of a run |
| `entered` | a component that has been put on the stack |
| `template` | a loaded component whose result is to be made anew |
| `forest`, `tree` | trees whose imports are to be resolved |
| `filled`, `allFilled` | trees of a component's markup with content in their slots |

`Derives.holds` says that a derivation ends in what the renderer computes.  The other
direction, that there is one, combines what each recursion goes down on: how far the
stack is from the limit, then the caller's trees that are not yet resolved, and in a
template the nodes and attributes (`Document.evaluate_spec`).

What fills placeholders, compiles scripts and makes stylesheets is given from outside;
each is a function here, so it gives something for everything.
-/
import HtmlCompose.Proofs.Directive.InPlace
import HtmlCompose.Proofs.Render.Cold

namespace HtmlCompose

open Markup Resolve

namespace Renderer

/-! ### Judgments -/

/-- Something that a render does, with what comes out. -/
inductive Judgment where
  | component (uri : String) (custom : Option Data) (mode : RenderMode) (run : Run)
    (out : Except RenderError Rendered × Run)
  | entered (uri : String) (custom : Option Data) (mode : RenderMode) (run : Run)
    (out : Except RenderError Rendered × Run)
  | template (uri : String) (loaded : Component) (data : Data) (run : Run) (out : Resolved Run)
  | tree (component : String) (imports : ImportTable) (t : Tree) (p : Progress Run)
    (out : Resolved Run)
  | forest (component : String) (imports : ImportTable) (ts : Forest) (p : Progress Run)
    (out : Resolved Run)
  | filled (component : String) (imports : ImportTable) (t : Filled Tree) (p : Progress Run)
    (out : Resolved Run)
  | allFilled (component : String) (imports : ImportTable) (ts : List (Filled Tree))
    (p : Progress Run) (out : Resolved Run)

/-- A judgment is derived in finitely many steps. -/
inductive Derives (r : Renderer) : Judgment → Prop where
  /-- the component is being rendered already -/
  | cycle {uri custom mode run} : uri ∈ run.ancestry →
    Derives r (.component uri custom mode run
      (.error (.cyclicImport (run.ancestry ++ [uri])), run))
  /-- too many components are being rendered -/
  | tooDeep {uri custom mode run} : uri ∉ run.ancestry →
    r.config.maxDepth < run.ancestry.length →
    Derives r (.component uri custom mode run
      (.error (.depthExceeded uri r.config.maxDepth), run))
  /-- the component is put on the stack, and taken off after it has been rendered -/
  | enter {uri custom mode run result after} : uri ∉ run.ancestry →
    run.ancestry.length ≤ r.config.maxDepth →
    Derives r (.entered uri custom mode (entered run uri) (result, after)) →
    Derives r (.component uri custom mode run
      (result, { after with ancestry := after.ancestry.dropLast }))
  /-- the component cannot be loaded -/
  | unloaded {uri custom mode run error} : r.library uri = .error error →
    Derives r (.entered uri custom mode run (.error (.load error), noted run custom mode))
  /-- a finished render is found, and its chains are checked -/
  | hit {uri custom mode run component rendered} : r.library uri = .ok component →
    r.hit? uri component custom mode run.cache = some rendered →
    Derives r (.entered uri custom mode run
      ((r.refusal? run.ancestry rendered.importPaths).elim (.ok rendered) .error,
        noted run custom mode))
  /-- the template never ends -/
  | malformed {uri custom mode run component fault} : r.library uri = .ok component →
    r.hit? uri component custom mode run.cache = none →
    Document.parse component.template = .error fault →
    Derives r (.entered uri custom mode run (.error (.markup uri fault), noted run custom mode))
  /-- the template is evaluated and resolved, but there is no result -/
  | failed {uri custom mode run component resolved error} : r.library uri = .ok component →
    r.hit? uri component custom mode run.cache = none →
    Derives r (.template uri component (Context.merge component.settings custom)
      (noted run custom mode) resolved) →
    r.conclude uri component (Context.merge component.settings custom) mode resolved =
      .error error →
    Derives r (.entered uri custom mode run (.error error, resolved.after.run))
  /-- the template is evaluated and resolved, and the result is kept -/
  | finished {uri custom mode run component resolved rendered} : r.library uri = .ok component →
    r.hit? uri component custom mode run.cache = none →
    Derives r (.template uri component (Context.merge component.settings custom)
      (noted run custom mode) resolved) →
    r.conclude uri component (Context.merge component.settings custom) mode resolved =
      .ok rendered →
    Derives r (.entered uri custom mode run
      (r.kept (key uri component custom mode) rendered resolved.after.run))
  /-- the directives are carried out in place, and then the imports are resolved -/
  | evaluated {uri component data run d d' f out} :
    Document.parse component.template = .ok d →
    Document.Evaluates component.settings.imports (.nodes data (d.children Document.root)) d d' →
    d'.Unfolds (d'.children Document.root) f →
    Derives r (.forest uri component.settings.imports f ⟨run, [], []⟩ out) →
    Derives r (.template uri component data run out)
  | noTrees {c imports p} : Derives r (.forest c imports [] p ⟨[], none, p⟩)
  | trees {c imports t ts p out others} : Derives r (.tree c imports t p out) →
    out.failure = none → Derives r (.forest c imports ts out.after others) →
    Derives r (.forest c imports (t :: ts) p { others with nodes := out.nodes ++ others.nodes })
  | treesStop {c imports t ts p out error} : Derives r (.tree c imports t p out) →
    out.failure = some error →
    Derives r (.forest c imports (t :: ts) p { out with nodes := out.nodes ++ ts })
  /-- a node that is no element -/
  | leaf {c imports content kids p} : content.element? = none →
    Derives r (.tree c imports (.node content kids) p ⟨[.node content kids], none, p⟩)
  /-- an element that is not imported -/
  | inner {c imports content e kids p out} : content.element? = some e →
    imports.get? e.name = none → Derives r (.forest c imports kids p out) →
    Derives r (.tree c imports (.node content kids) p
      { out with nodes := [.node content out.nodes] })
  /-- an instance with an attribute that should hold JSON and does not -/
  | invalid {c imports content e kids p uri error} : content.element? = some e →
    imports.get? e.name = some uri → payload c e.attrs = .error error →
    Derives r (.tree c imports (.node content kids) p ⟨[.ofElement e kids], some error, p⟩)
  /-- an instance of a component that fails -/
  | broken {c imports content e kids p uri data error run} : content.element? = some e →
    imports.get? e.name = some uri → payload c e.attrs = .ok data →
    Derives r (.component uri (some data) .descendant p.run (.error error, run)) →
    Derives r (.tree c imports (.node content kids) p
      ⟨[.ofElement e kids], some error, { p with run }⟩)
  /-- an instance of a component whose markup never ends -/
  | unreadable {c imports content e kids p uri data rendered run fault} :
    content.element? = some e → imports.get? e.name = some uri → payload c e.attrs = .ok data →
    Derives r (.component uri (some data) .descendant p.run (.ok rendered, run)) →
    Markup.parse rendered.markup = .error fault →
    Derives r (.tree c imports (.node content kids) p
      ⟨[.ofElement e kids], some (.markup uri fault), { p with run }.collect uri rendered⟩)
  /-- an instance whose content is resolved in the slots -/
  | expanded {c imports content e kids p uri data rendered run markup filled left out} :
    content.element? = some e → imports.get? e.name = some uri → payload c e.attrs = .ok data →
    Derives r (.component uri (some data) .descendant p.run (.ok rendered, run)) →
    Markup.parse rendered.markup = .ok markup →
    Slot.fillForest Slot.target? kids markup = (filled, left) →
    Derives r (.allFilled c imports filled ({ p with run }.collect uri rendered) out) →
    out.failure = none → Derives r (.tree c imports (.node content kids) p out)
  /-- an instance whose content fails in the slots -/
  | expandedStop {c imports content e kids p uri data rendered run markup filled left out error} :
    content.element? = some e → imports.get? e.name = some uri → payload c e.attrs = .ok data →
    Derives r (.component uri (some data) .descendant p.run (.ok rendered, run)) →
    Markup.parse rendered.markup = .ok markup →
    Slot.fillForest Slot.target? kids markup = (filled, left) →
    Derives r (.allFilled c imports filled ({ p with run }.collect uri rendered) out) →
    out.failure = some error →
    Derives r (.tree c imports (.node content kids) p { out with nodes := [.ofElement e left] })
  | own {c imports content kids p out} : Derives r (.allFilled c imports kids p out) →
    Derives r (.filled c imports (.own content kids) p
      { out with nodes := [.node content out.nodes] })
  | received {c imports t p out} : Derives r (.tree c imports t p out) →
    Derives r (.filled c imports (.received t) p out)
  | noneFilled {c imports p} : Derives r (.allFilled c imports [] p ⟨[], none, p⟩)
  | someFilled {c imports t ts p out others} : Derives r (.filled c imports t p out) →
    out.failure = none → Derives r (.allFilled c imports ts out.after others) →
    Derives r (.allFilled c imports (t :: ts) p
      { others with nodes := out.nodes ++ others.nodes })
  | someFilledStop {c imports t ts p out error} : Derives r (.filled c imports t p out) →
    out.failure = some error → Derives r (.allFilled c imports (t :: ts) p out)

/-! ### A derivation ends in what is computed -/

/-- What is computed comes out. -/
def Judgment.Holds (r : Renderer) : Judgment → Prop
  | .component uri custom mode run out => r.renderComponent uri custom mode run = out
  | .entered uri custom mode run out => r.renderEntered r.descend uri custom mode run = out
  | .template uri loaded data run out => ∀ mode,
    r.renderFresh r.descend uri loaded data mode run =
      (r.conclude uri loaded data mode out, out.after.run)
  | .tree c imports t p out => resolveTree ⟨c, imports, r.descend⟩ t p = out
  | .forest c imports ts p out => resolveForest ⟨c, imports, r.descend⟩ ts p = out
  | .filled c imports t p out =>
    resolveFilled (t.mapReceived fun t => (t, resolveTree ⟨c, imports, r.descend⟩ t)) p = out
  | .allFilled c imports ts p out =>
    resolveAllFilled (ts.map (Filled.mapReceived fun t =>
      (t, resolveTree ⟨c, imports, r.descend⟩ t))) p = out

/-- Rendering an import leaves the stack as it was. -/
theorem descend_ancestry (r : Renderer) (uri : String) (data : Data) (run : Run) :
    (r.descend uri data run).2.ancestry = run.ancestry :=
  r.renderComponent_ancestry uri (some data) .descendant run

/-- The actions of the caller content resolve its trees. -/
theorem withActions_eq (i : Importer Run) (ts : List Tree) :
    withActions i ts = ts.map fun t => (t, resolveTree i t) := by
  induction ts with
  | nil => rfl
  | cons t ts ih => rw [withActions, ih, List.map_cons]

/-- An instance whose content is resolved in the slots. -/
theorem expand_of_derived {i : Importer Run} {uri : String} {e : Element} {kids : List Tree}
    {data : Data} {p : Progress Run} {rendered : Rendered} {run : Run} {markup : Forest}
    {filled : List (Filled Tree)} {left : List Tree} {out : Resolved Run}
    (hpayload : payload i.component e.attrs = .ok data)
    (hchild : i.child uri data p.run = (.ok rendered, run))
    (hparse : Markup.parse rendered.markup = .ok markup)
    (hfill : Slot.fillForest Slot.target? kids markup = (filled, left))
    (hout : resolveAllFilled (filled.map (Filled.mapReceived fun t => (t, resolveTree i t)))
      ({ p with run }.collect uri rendered) = out) :
    expand i uri e (withActions i kids) p =
      match out.failure with
      | some _ => { out with nodes := [.ofElement e left] }
      | none => out := by
  let withAction (t : Tree) : Tree × Action Run := (t, resolveTree i t)
  have hfilled : Slot.fillForest (Slot.target? ·.1) (kids.map withAction) markup =
      ((Slot.fillForest Slot.target? kids markup).1.map (Filled.mapReceived withAction),
        (Slot.fillForest Slot.target? kids markup).2.map withAction) :=
    Slot.fillForest_map (fun _ => rfl) kids markup
  rw [hfill] at hfilled
  rw [expand, withActions_eq]
  rcases out with ⟨nodes, _ | error, after⟩ <;>
    simp only [hpayload, hchild, hparse, hfilled, withAction, hout, List.map_map,
      Function.comp_def, List.map_id']

/-- An instance is expanded with the actions of its content. -/
theorem resolveTree_of_instance {i : Importer Run} {content : Content} {e : Element}
    {kids : List Tree} {uri : String} (hcontent : content.element? = some e)
    (himport : i.imports.get? e.name = some uri) :
    resolveTree i (.node content kids) = expand i uri e (withActions i kids) := by
  rw [resolveTree, hcontent]
  simp only [himport]

/-- **A derivation ends in what is computed.** -/
theorem Derives.holds {r : Renderer} {J : Judgment} (h : Derives r J) : J.Holds r := by
  induction h with
  | cycle hcycle =>
    rw [Judgment.Holds, renderComponent_eq, if_pos hcycle]
  | tooDeep hnew hdepth =>
    rw [Judgment.Holds, renderComponent_eq, if_neg hnew, if_pos hdepth]
  | @enter uri custom mode run result after hnew hdepth _ ih =>
    have hback := r.renderEntered_ancestry r.descend_ancestry uri custom mode (entered run uri)
    rw [Judgment.Holds] at ih
    rw [ih] at hback
    rw [Judgment.Holds, renderComponent_eq, if_neg hnew, if_neg (Nat.not_lt.2 hdepth), ih, hback,
      entered, List.dropLast_concat]
  | unloaded hload =>
    rw [Judgment.Holds, renderEntered_eq, hload]
  | hit hload hhit =>
    rw [Judgment.Holds, renderEntered_eq, hload]
    simp only [hhit]
  | malformed hload hhit hparse =>
    rw [Judgment.Holds, renderEntered_eq, hload]
    simp only [hhit, renderFresh_eq, questions, hparse]
  | @failed uri custom mode run component resolved error hload hhit _ hconclude ih =>
    have hfresh := ih mode
    rw [Judgment.Holds, renderEntered_eq, hload]
    simp only [hhit, hfresh, hconclude]
  | @finished uri custom mode run component resolved rendered hload hhit _ hconclude ih =>
    have hfresh := ih mode
    rw [Judgment.Holds, renderEntered_eq, hload]
    simp only [hhit, hfresh, hconclude]
  | @evaluated uri component data run d d' f out hparse hdone hunfolds _ ih =>
    intro mode
    have hforest := (Document.evaluate_of_parse hparse component.settings.imports data).2 d' f
      hdone hunfolds
    rw [Judgment.Holds, Dialogue.resolveForest_eq_run] at ih
    rw [renderFresh_eq, questions, hparse]
    simp only [hforest, ih]
  | noTrees => rfl
  | trees _ hnone _ ihTree ihForest =>
    simp only [Judgment.Holds] at ihTree ihForest
    rw [Judgment.Holds, resolveForest]
    simp only [ihTree, hnone, ihForest]
  | treesStop _ hsome ih =>
    rw [Judgment.Holds] at ih
    rw [Judgment.Holds, resolveForest]
    simp only [ih, hsome]
  | leaf hcontent =>
    rw [Judgment.Holds, resolveTree, hcontent]
    rfl
  | inner hcontent himport _ ih =>
    rw [Judgment.Holds] at ih
    rw [Judgment.Holds, resolveTree, hcontent]
    simp only [himport, ih]
  | invalid hcontent himport hpayload =>
    rw [Judgment.Holds, resolveTree_of_instance hcontent himport, expand]
    simp only [hpayload, withActions_eq, List.map_map, Function.comp_def, List.map_id']
  | broken hcontent himport hpayload _ ih =>
    rw [Judgment.Holds, resolveTree_of_instance hcontent himport, expand]
    rw [Judgment.Holds, ← descend] at ih
    simp only [hpayload, ih, withActions_eq, List.map_map, Function.comp_def, List.map_id']
  | unreadable hcontent himport hpayload _ hparse ih =>
    rw [Judgment.Holds, resolveTree_of_instance hcontent himport, expand]
    rw [Judgment.Holds, ← descend] at ih
    simp only [hpayload, ih, hparse, withActions_eq, List.map_map, Function.comp_def, List.map_id']
  | expanded hcontent himport hpayload _ hparse hfill _ hnone ihChild ih =>
    rw [Judgment.Holds, ← descend] at ihChild
    rw [Judgment.Holds, resolveTree_of_instance hcontent himport,
      expand_of_derived hpayload ihChild hparse hfill ih, hnone]
  | expandedStop hcontent himport hpayload _ hparse hfill _ hsome ihChild ih =>
    rw [Judgment.Holds, ← descend] at ihChild
    rw [Judgment.Holds, resolveTree_of_instance hcontent himport,
      expand_of_derived hpayload ihChild hparse hfill ih, hsome]
  | own _ ih =>
    rw [Judgment.Holds] at ih
    rw [Judgment.Holds, Filled.mapReceived, resolveFilled]
    simp only [ih]
  | received _ ih =>
    rw [Judgment.Holds, Filled.mapReceived, resolveFilled]
    exact ih
  | noneFilled => rfl
  | someFilled _ hnone _ ihTree ihForest =>
    simp only [Judgment.Holds] at ihTree ihForest
    rw [Judgment.Holds, List.map_cons, resolveAllFilled]
    simp only [ihTree, hnone, ihForest]
  | someFilledStop _ hsome ih =>
    rw [Judgment.Holds] at ih
    rw [Judgment.Holds, List.map_cons, resolveAllFilled]
    simp only [ih, hsome]

/-! ### There is a derivation -/

/-- Something to be resolved below some components has a derivation, and leaves them as they are. -/
def Resolves (r : Renderer) (stack : List String) (J : Progress Run → Resolved Run → Judgment) :
    Prop :=
  ∀ p : Progress Run, p.run.ancestry = stack →
    ∃ out, Derives r (J p out) ∧ out.after.run.ancestry = stack

/-- Every import below some components has a derivation. -/
def Descends (r : Renderer) (stack : List String) : Prop :=
  ∀ (uri : String) (data : Data) (run : Run), run.ancestry = stack →
    ∃ out, Derives r (.component uri (some data) .descendant run out)

variable {r : Renderer} {stack : List String} {c : String} {imports : ImportTable}

/-- Trees in a row can be resolved if each of them can. -/
theorem Resolves.forest {ts : Forest} (h : ∀ t ∈ ts, Resolves r stack (.tree c imports t)) :
    Resolves r stack (.forest c imports ts) := by
  induction ts with
  | nil => exact fun p hp => ⟨_, .noTrees, hp⟩
  | cons t ts ih =>
    intro p hp
    obtain ⟨out, hout, hstack⟩ := h t List.mem_cons_self p hp
    rcases hfailure : out.failure with _ | error
    · obtain ⟨others, hothers, hstack'⟩ :=
        ih (fun t ht => h t (List.mem_cons_of_mem _ ht)) out.after hstack
      exact ⟨_, .trees hout hfailure hothers, hstack'⟩
    · exact ⟨_, .treesStop hout hfailure, hstack⟩

mutual
/-- Content that can be resolved can be resolved in the slots. -/
theorem Resolves.filled (f : Filled { t : Tree // Resolves r stack (.tree c imports t) }) :
    Resolves r stack (.filled c imports (f.mapReceived (·.1))) := by
  intro p hp
  match f with
  | .own content kids =>
    obtain ⟨out, hout, hstack⟩ := Resolves.allFilled kids p hp
    rw [Filled.mapReceived]
    exact ⟨_, .own hout, hstack⟩
  | .received ⟨t, ht⟩ =>
    obtain ⟨out, hout, hstack⟩ := ht p hp
    rw [Filled.mapReceived]
    exact ⟨_, .received hout, hstack⟩

/-- Filled trees in a row can be resolved if the content in them can. -/
theorem Resolves.allFilled
    (fs : List (Filled { t : Tree // Resolves r stack (.tree c imports t) })) :
    Resolves r stack (.allFilled c imports (fs.map (Filled.mapReceived (·.1)))) := by
  intro p hp
  match fs with
  | [] => exact ⟨_, .noneFilled, hp⟩
  | f :: fs =>
    rw [List.map_cons]
    obtain ⟨out, hout, hstack⟩ := Resolves.filled f p hp
    rcases hfailure : out.failure with _ | error
    · obtain ⟨others, hothers, hstack'⟩ := Resolves.allFilled fs out.after hstack
      exact ⟨_, .someFilled hout hfailure hothers, hstack'⟩
    · exact ⟨_, .someFilledStop hout hfailure, hstack⟩
end

/-- Content that can be resolved can be resolved once it has found its slots. -/
theorem Resolves.slots {kids : List Tree} (hkids : ∀ t ∈ kids, Resolves r stack (.tree c imports t))
    (markup : Forest) :
    Resolves r stack (.allFilled c imports (Slot.fillForest Slot.target? kids markup).1) := by
  let kids' := kids.attachWith _ hkids
  have hfill : Slot.fillForest Slot.target? (kids'.map Subtype.val) markup =
      ((Slot.fillForest (fun t => Slot.target? t.1) kids' markup).1.map
          (Filled.mapReceived Subtype.val),
        (Slot.fillForest (fun t => Slot.target? t.1) kids' markup).2.map Subtype.val) :=
    Slot.fillForest_map (fun _ => rfl) kids' markup
  rw [List.attachWith_map_subtype_val] at hfill
  rw [hfill]
  exact Resolves.allFilled _

/-- An instance is resolved if its content can be. -/
theorem Resolves.instance (hdescends : Descends r stack) {content : Content} {e : Element}
    {kids : List Tree} {uri : String} (hcontent : content.element? = some e)
    (himport : imports.get? e.name = some uri)
    (hkids : ∀ t ∈ kids, Resolves r stack (.tree c imports t)) :
    Resolves r stack (.tree c imports (.node content kids)) := by
  intro p hp
  rcases hpayload : payload c e.attrs with error | data
  · exact ⟨_, .invalid hcontent himport hpayload, hp⟩
  obtain ⟨⟨result, run⟩, hchild⟩ := hdescends uri data p.run hp
  have hrun : run.ancestry = stack := by
    have hkept := r.renderComponent_ancestry uri (some data) .descendant p.run
    rw [show r.renderComponent uri (some data) .descendant p.run = (result, run) from hchild.holds]
      at hkept
    exact hkept.trans hp
  rcases result with error | rendered
  · exact ⟨_, .broken hcontent himport hpayload hchild, hrun⟩
  rcases hparse : Markup.parse rendered.markup with fault | markup
  · exact ⟨_, .unreadable hcontent himport hpayload hchild hparse, hrun⟩
  obtain ⟨out, hout, hstack⟩ := Resolves.slots hkids markup
    ({ p with run }.collect uri rendered) hrun
  rcases hfailure : out.failure with _ | error
  · exact ⟨_, .expanded hcontent himport hpayload hchild hparse rfl hout hfailure, hstack⟩
  · exact ⟨_, .expandedStop hcontent himport hpayload hchild hparse rfl hout hfailure, hstack⟩

mutual
/-- A tree is resolved if every import below the components can be rendered. -/
theorem Descends.tree (h : Descends r stack) (t : Tree) :
    Resolves r stack (.tree c imports t) := by
  obtain ⟨content, kids⟩ := t
  have hkids : ∀ t ∈ kids, Resolves r stack (.tree c imports t) := Descends.each h kids
  rcases hcontent : content.element? with _ | e
  · exact fun p hp => ⟨_, .leaf hcontent, hp⟩
  rcases himport : imports.get? e.name with _ | uri
  · intro p hp
    obtain ⟨out, hout, hstack⟩ := Resolves.forest hkids p hp
    exact ⟨_, .inner hcontent himport hout, hstack⟩
  · exact .instance h hcontent himport hkids

/-- Each of some trees is resolved if every import below the components can be rendered. -/
theorem Descends.each (h : Descends r stack) (ts : List Tree) :
    ∀ t ∈ ts, Resolves r stack (.tree c imports t) := by
  match ts with
  | [] => exact fun t ht => absurd ht List.not_mem_nil
  | t :: ts =>
    have hfirst : Resolves r stack (.tree c imports t) := Descends.tree h t
    have hothers : ∀ t ∈ ts, Resolves r stack (.tree c imports t) := Descends.each h ts
    exact List.forall_mem_cons.2 ⟨hfirst, hothers⟩
end

/-- A component that has been entered is rendered if every import below it can be. -/
theorem Descends.entered {run : Run} (h : Descends r run.ancestry) (uri : String)
    (custom : Option Data) (mode : RenderMode) :
    ∃ out, Derives r (.entered uri custom mode run out) := by
  rcases hload : r.library uri with error | component
  · exact ⟨_, .unloaded hload⟩
  rcases hhit : r.hit? uri component custom mode run.cache with _ | rendered
  swap
  · exact ⟨_, .hit hload hhit⟩
  rcases hparse : Document.parse component.template with fault | d
  · exact ⟨_, .malformed hload hhit hparse⟩
  obtain ⟨⟨d', hdone, hunfolds⟩, -⟩ := Document.evaluate_of_parse hparse component.settings.imports
    (Context.merge component.settings custom)
  obtain ⟨resolved, hresolved, -⟩ := Resolves.forest (h.each _) ⟨noted run custom mode, [], []⟩ rfl
  have htemplate := Derives.evaluated hparse hdone hunfolds hresolved
  rcases hconclude : r.conclude uri component (Context.merge component.settings custom) mode
    resolved with error | rendered
  · exact ⟨_, .failed hload hhit htemplate hconclude⟩
  · exact ⟨_, .finished hload hhit htemplate hconclude⟩

/-- Every render has a derivation: the stack comes nearer to the limit with every component. -/
theorem exists_derives (r : Renderer) (stack : List String) :
    ∀ uri custom mode (run : Run), run.ancestry = stack →
      ∃ out, Derives r (.component uri custom mode run out) := by
  induction stack using below_induction r.config.maxDepth with
  | step stack ih =>
    rintro uri custom mode run rfl
    by_cases hcycle : uri ∈ run.ancestry
    · exact ⟨_, .cycle hcycle⟩
    by_cases hdepth : r.config.maxDepth < run.ancestry.length
    · exact ⟨_, .tooDeep hcycle hdepth⟩
    have hdescends : Descends r (entered run uri).ancestry := fun child data s hs =>
      ih (Nat.le_of_not_lt hdepth) uri child (some data) .descendant s hs
    obtain ⟨⟨result, after⟩, hentered⟩ := hdescends.entered uri custom mode
    exact ⟨_, .enter hcycle (Nat.le_of_not_lt hdepth) hentered⟩

/-- **Every render ends.**  Whatever the components, the configuration, the data and the run are,
a render is derived in finitely many steps with one outcome, a result or an error, and this is the
one that is computed. -/
theorem renderComponent_ends (r : Renderer) (uri : String) (custom : Option Data)
    (mode : RenderMode) (run : Run) :
    (∃! out, Derives r (.component uri custom mode run out)) ∧
      Derives r (.component uri custom mode run (r.renderComponent uri custom mode run)) := by
  obtain ⟨out, hout⟩ := r.exists_derives run.ancestry uri custom mode run rfl
  have hcomputed : r.renderComponent uri custom mode run = out := hout.holds
  rw [hcomputed]
  exact ⟨⟨out, hout, fun out' hout' => hout'.holds.symm.trans hcomputed⟩, hout⟩

end Renderer
end HtmlCompose
