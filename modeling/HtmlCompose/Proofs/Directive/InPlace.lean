/-
# Evaluating in place ends, and means what directives mean

A document is evaluated by jobs: evaluate a node, put evaluated copies of a node before
it, evaluate some nodes in turn.  `Evaluates` tells how a job changes a document, step
by step as evaluation goes, but with no bound on the depth.  So a job that never ends
changes a document to nothing, and one that ends to one document only (`Evaluates.eq`).

`evaluateNode_spec` is the whole of what is to be known about a node: as long as the
bound is not less than the number of nodes and attributes below it, evaluation ends by
itself, puts in the place of the node what the node means, and leaves the rest of the
document alone.  A copy has one directive less than the node that it is a copy of, and
the nodes below a node are fewer, which is all that the bound is needed for.
-/
import HtmlCompose.Proofs.Directive.Meaning
import HtmlCompose.Proofs.Markup.Row

namespace HtmlCompose
namespace Markup
namespace Document

open Directive Placed

/-! ### Jobs -/

/-- What evaluation has to do. -/
inductive Job where
  /-- evaluate a node with data -/
  | node (data : Data) (h : Handle)
  /-- put a copy of a node before it for each item, evaluated with the item -/
  | copies (h : Handle) (items : List Data)
  /-- evaluate some nodes with data -/
  | nodes (data : Data) (hs : List Handle)

/-- A job is done, and has changed one document to another. -/
inductive Evaluates (imports : ImportTable) : Job → Document → Document → Prop where
  | text {data h d s} : d.content h = .text s →
    Evaluates imports (.node data h) d (d.setContent h (.text (Placeholder.fill true data s)))
  | other {data h d} : (∀ s, d.content h ≠ .text s) → (∀ e, d.content h ≠ .element e) →
    Evaluates imports (.node data h) d d
  | repeated {data h d d' e expr} : d.content h = .element e → e.attr? repeatName = some expr →
    Evaluates imports (.copies h (loopData data expr))
      (d.setContent h (.element (e.removeAttr repeatName))) d' →
    Evaluates imports (.node data h) d (d'.detach h)
  | dropped {data h d e} : d.content h = .element e → e.attr? repeatName = none →
    admits data (fillAttributes data e) = false →
    Evaluates imports (.node data h) d (d.detach h)
  | slot {data h d e text d' t} : d.content h = .element e → e.attr? repeatName = none →
    admits data (fillAttributes data e) = true → slotText? data (admitted data e) = some text →
    (d.setContent h (.element (admitted data e))).create (.text text) = (d', t) →
    Evaluates imports (.node data h) d (d'.replaceWith h [t])
  | plain {data h d e d' d''} : d.content h = .element e → e.attr? repeatName = none →
    admits data (fillAttributes data e) = true → slotText? data (admitted data e) = none →
    d.setContent h (.element (admitted data e)) = d' →
    Evaluates imports (.nodes data (d'.children h)) d' d'' →
    Evaluates imports (.node data h) d (d''.setContent h
      (.element (bindAttributes data (imports.contains e.name) (admitted data e))))
  | noCopies {h d} : Evaluates imports (.copies h []) d d
  | copy {h item items d d' d'' e t c} : d.Unfolds [h] [t] → d.adopt t = (e, c) →
    Evaluates imports (.node item c) (e.insertBefore h c) d' →
    Evaluates imports (.copies h items) d' d'' →
    Evaluates imports (.copies h (item :: items)) d d''
  | noNodes {data d} : Evaluates imports (.nodes data []) d d
  | next {data h hs d d' d''} : Evaluates imports (.node data h) d d' →
    Evaluates imports (.nodes data hs) d' d'' →
    Evaluates imports (.nodes data (h :: hs)) d d''

variable {imports : ImportTable} {d d' : Document}

/-- **A job changes a document in one way only.** -/
theorem Evaluates.eq {j : Job} {d₁ d₂ : Document} (h₁ : Evaluates imports j d d₁)
    (h₂ : Evaluates imports j d d₂) : d₁ = d₂ := by
  induction h₁ generalizing d₂ with
  | text hc =>
    cases h₂ <;> simp_all
  | other htext helement =>
    cases h₂ <;> simp_all
  | repeated hc hrepeat _ ih =>
    cases h₂ with
    | repeated hc' hrepeat' h' =>
      obtain rfl := Content.element.inj (hc.symm.trans hc')
      obtain rfl := Option.some.inj (hrepeat.symm.trans hrepeat')
      rw [ih h']
    | _ => simp_all
  | dropped hc hrepeat hadmits =>
    cases h₂ <;> simp_all
  | slot hc hrepeat hadmits hslot hcreate =>
    cases h₂ <;> simp_all
  | plain hc hrepeat hadmits hslot hset _ ih =>
    cases h₂ with
    | plain hc' _ _ _ hset' h' =>
      obtain rfl := Content.element.inj (hc.symm.trans hc')
      obtain rfl := hset.symm.trans hset'
      rw [ih h']
    | _ => simp_all
  | noCopies =>
    cases h₂
    rfl
  | copy hunfolds hadopt _ _ ihCopy ihRest =>
    cases h₂ with
    | copy hunfolds' hadopt' hcopy hrest =>
      obtain ⟨rfl, -⟩ := List.cons.inj (hunfolds.eq hunfolds')
      obtain ⟨rfl, rfl⟩ := Prod.mk.inj (hadopt.symm.trans hadopt')
      obtain rfl := ihCopy hcopy
      exact ihRest hrest
  | noNodes =>
    cases h₂
    rfl
  | next _ _ ihNode ihRest =>
    cases h₂ with
    | next hnode hrest =>
      obtain rfl := ihNode hnode
      exact ihRest hrest

/-! ### One node -/

variable {n : Nat} {data : Data} {h : Handle} {e : Element}

/-- The document with an evaluated copy of a node before it. -/
def placeCopy (imports : ImportTable) (n : Nat) (h : Handle) (d : Document) (item : Data) :
    Document :=
  evaluateNode imports n item ((d.adopt (d.tree h)).1.insertBefore h (d.adopt (d.tree h)).2)
    (d.adopt (d.tree h)).2

/-- A text is filled where it is. -/
theorem evaluateNode_text {s : String} (hc : d.content h = .text s) :
    d.evaluateNode imports (n + 1) data h =
      d.setContent h (.text (Placeholder.fill true data s)) := by
  rw [evaluateNode, hc]

/-- A repeated element is copied for every item, and then taken out. -/
theorem evaluateNode_repeated {expr : String} (hc : d.content h = .element e)
    (hrepeat : e.attr? repeatName = some expr) :
    d.evaluateNode imports (n + 1) data h =
      ((loopData data expr).foldl (placeCopy imports n h)
        (d.setContent h (.element (e.removeAttr repeatName)))).detach h := by
  rw [evaluateNode, hc]
  simp only [hrepeat]
  rfl

/-- An element whose condition does not hold is taken out. -/
theorem evaluateNode_dropped (hc : d.content h = .element e) (hrepeat : e.attr? repeatName = none)
    (hadmits : admits data (fillAttributes data e) = false) :
    d.evaluateNode imports (n + 1) data h = d.detach h := by
  rw [evaluateNode, hc]
  simp [hrepeat, hadmits]

/-- A slot for a value gives way to a new text. -/
theorem evaluateNode_slot {text : String} (hc : d.content h = .element e)
    (hrepeat : e.attr? repeatName = none)
    (hadmits : admits data (fillAttributes data e) = true)
    (hslot : slotText? data (admitted data e) = some text) :
    d.evaluateNode imports (n + 1) data h =
      (((d.setContent h (.element (admitted data e))).create (.text text)).1.insertBefore h
        ((d.setContent h (.element (admitted data e))).create (.text text)).2).detach h := by
  rw [evaluateNode, hc]
  rw [admitted] at hslot ⊢
  simp only [hrepeat, hadmits, hslot, if_true, replaceWith, List.foldl]

/-- Any other element has its children evaluated, and then its attributes bound. -/
theorem evaluateNode_plain (hc : d.content h = .element e) (hrepeat : e.attr? repeatName = none)
    (hadmits : admits data (fillAttributes data e) = true)
    (hslot : slotText? data (admitted data e) = none) :
    d.evaluateNode imports (n + 1) data h =
      (((d.setContent h (.element (admitted data e))).children h).foldl
        (evaluateNode imports n data) (d.setContent h (.element (admitted data e)))).setContent h
        (.element (bindAttributes data (imports.contains e.name) (admitted data e))) := by
  rw [evaluateNode, hc]
  rw [admitted] at hslot ⊢
  simp only [hrepeat, hadmits, hslot, if_true]
  rfl

/-! ### Rows -/

variable {p : Handle} {before behind : List Handle}

/-- A job has been done on a row, and given trees stand in its place. -/
def Settles (imports : ImportTable) (j : Job) (d d' : Document) (p : Handle)
    (before : List Handle) (Ps : List Placed) (behind : List Handle) (f : Forest) : Prop :=
  Evaluates imports j d d' ∧
    ∃ Qs, Row d' p before Qs behind ∧ Change d d' p Ps Qs ∧ Placed.forest Qs = f

/-- A bound on the depth is enough for every tree that has not more nodes and attributes. -/
def Enough (imports : ImportTable) (n : Nat) : Prop :=
  ∀ {d : Document} {p : Handle} {before : List Handle} {P : Placed} {behind : List Handle}
    (data : Data), Row d p before [P] behind → P.tree.weight ≤ n →
    Settles imports (.node data P.handle) d (d.evaluateNode imports n data P.handle) p before [P]
      behind (meanTree imports P.tree data)

/-- A bound that is enough for each tree is enough for a row of them. -/
theorem Enough.nodes (hn : Enough imports n) (data : Data) {Ps : List Placed}
    (hrow : Row d p before Ps behind) (hweight : Forest.weight (Placed.forest Ps) ≤ n) :
    Settles imports (.nodes data (Ps.map Placed.handle)) d
      ((Ps.map Placed.handle).foldl (evaluateNode imports n data) d) p before Ps behind
      (meanForest imports (Placed.forest Ps) data) := by
  induction Ps generalizing d before with
  | nil => exact ⟨.noNodes, [], hrow, Change.refl d p [], rfl⟩
  | cons P Ps ih =>
    rw [Placed.forest, Forest.weight] at hweight
    have hrow' : Row d p before ([P] ++ Ps) behind := hrow
    obtain ⟨hnode, Qs, hQs, hchange, hmean⟩ := hn data hrow'.left (by omega)
    have hmid := hrow'.change_left hQs hchange
    obtain ⟨hnodes, Rs, hRs, hchange', hmean'⟩ := ih hmid.right (by omega)
    refine ⟨.next hnode hnodes, Qs ++ Rs, hmid.change_right hRs hchange',
      (hchange.append_right Ps).trans (hchange'.append_left Qs), ?_⟩
    rw [Placed.forest_append, hmean, hmean', Placed.forest, meanForest]

/-- Copies are put before a node one after another, and the node stays as it is. -/
theorem Enough.copies (hn : Enough imports n) {P : Placed} (items : List Data)
    (hrow : Row d p before [P] behind) (hweight : P.tree.weight ≤ n) :
    Evaluates imports (.copies P.handle items) d (items.foldl (placeCopy imports n P.handle) d) ∧
      ∃ Qs, Row (items.foldl (placeCopy imports n P.handle) d) p before (Qs ++ [P]) behind ∧
        Change d (items.foldl (placeCopy imports n P.handle) d) p [P] (Qs ++ [P]) ∧
        Placed.forest Qs = items.flatMap (meanTree imports P.tree) := by
  induction items generalizing d before with
  | nil => exact ⟨.noCopies, [], hrow, Change.refl d p [P], rfl⟩
  | cons item items ih =>
    rw [List.foldl_cons, placeCopy]
    have hP := hrow.shows.1
    have htree : d.tree P.handle = P.tree := hP.tree_eq (allHandles_singleton P ▸ hrow.nodup)
    obtain ⟨C, hC, hhandle, hshows, hfresh, hframe⟩ := d.adopt_spec P.tree
    rw [htree, hhandle]
    have hadopt : d.adopt P.tree = ((d.adopt P.tree).1, C.handle) := Prod.ext rfl hhandle
    obtain ⟨hinsert, hchange⟩ := hrow.insert hshows hfresh hframe
    have hinsert' : Row _ p before ([C] ++ [P]) behind := hinsert
    obtain ⟨hcopy, Qs, hQs, hchange', hmean⟩ := hn item hinsert'.left (hC ▸ hweight)
    have hmid := hinsert'.change_left hQs hchange'
    obtain ⟨hcopies, Rs, hRs, hchange'', hmean'⟩ := ih hmid.right
    refine ⟨.copy (hP.unfolds .nil) hadopt hcopy hcopies, Qs ++ Rs, ?_, ?_, ?_⟩
    · rw [List.append_assoc]
      exact hmid.change_right hRs hchange''
    · rw [List.append_assoc]
      exact hchange.trans ((hchange'.append_right [P]).trans (hchange''.append_left Qs))
    · rw [Placed.forest_append, hmean, hmean', hC, List.flatMap_cons]

variable {kids : List Placed}

/-- A repeated element leaves its copies. -/
theorem Enough.repeated (hn : Enough imports n) (data : Data) {expr : String}
    (hrow : Row d p before [.node h (.element e) kids] behind)
    (hrepeat : e.attr? repeatName = some expr)
    (hweight : (Tree.node (.element e) (Placed.forest kids)).weight ≤ n + 1) :
    Settles imports (.node data h) d (d.evaluateNode imports (n + 1) data h) p before
      [.node h (.element e) kids] behind
      (meanElement imports (meanForest imports (Placed.forest kids)) data e) := by
  have hc : d.content h = .element e := congrArg Node.content hrow.node_eq
  obtain ⟨hset, hchange⟩ := hrow.setContent (.element (e.removeAttr repeatName))
  have hless :
      (Tree.node (.element (e.removeAttr repeatName)) (Placed.forest kids)).weight ≤ n := by
    have hremove := length_removeAttr_lt hrepeat
    simp only [Tree.weight, Content.element?, Option.map_some, Option.getD_some] at hweight ⊢
    omega
  obtain ⟨hcopies, Qs, hQs, hchange', hmean⟩ := hn.copies (loopData data expr) hset hless
  obtain ⟨hdetach, hchange''⟩ := hQs.detach
  rw [evaluateNode_repeated hc hrepeat, meanElement_repeated imports _ data hrepeat]
  exact ⟨.repeated hc hrepeat hcopies, Qs, hdetach, hchange.trans (hchange'.trans hchange''), hmean⟩

/-- A slot for a value leaves a text. -/
theorem slot_spec {text : String} (hrow : Row d p before [.node h (.element e) kids] behind)
    (hrepeat : e.attr? repeatName = none)
    (hadmits : admits data (fillAttributes data e) = true)
    (hslot : slotText? data (admitted data e) = some text) :
    Settles imports (.node data h) d (d.evaluateNode imports (n + 1) data h) p before
      [.node h (.element e) kids] behind [.ofText text] := by
  have hc : d.content h = .element e := congrArg Node.content hrow.node_eq
  obtain ⟨hset, hchange⟩ := hrow.setContent (.element (admitted data e))
  have hdone : Evaluates imports (.node data h) d _ := .slot hc hrepeat hadmits hslot rfl
  rw [evaluateNode_slot hc hrepeat hadmits hslot]
  generalize d.setContent h (.element (admitted data e)) = d₁ at hset hchange hdone ⊢
  have hshows : (d₁.create (.text text)).1.Shows none (.node d₁.size (.text text) []) :=
    ⟨by rw [size_create]; exact Nat.lt_succ_self _, node_create_self d₁ _, trivial⟩
  obtain ⟨hinsert, hchange'⟩ := hset.insert hshows ⟨rfl, size_create d₁ _⟩
    fun x hx => node_create_of_lt hx _
  have hinsert' : Row _ p before ([.node d₁.size (.text text) []] ++ [_]) behind := hinsert
  obtain ⟨hdetach, hchange''⟩ := hinsert'.detach
  exact ⟨hdone, _, hdetach, hchange.trans (hchange'.trans hchange''), rfl⟩

/-- Any other element keeps its place. -/
theorem Enough.plain (hn : Enough imports n)
    (hrow : Row d p before [.node h (.element e) kids] behind)
    (hrepeat : e.attr? repeatName = none)
    (hadmits : admits data (fillAttributes data e) = true)
    (hslot : slotText? data (admitted data e) = none)
    (hweight : Forest.weight (Placed.forest kids) ≤ n) :
    Settles imports (.node data h) d (d.evaluateNode imports (n + 1) data h) p before
      [.node h (.element e) kids] behind
      [.ofElement (bindAttributes data (imports.contains e.name) (admitted data e))
        (meanForest imports (Placed.forest kids) data)] := by
  have hc : d.content h = .element e := congrArg Node.content hrow.node_eq
  obtain ⟨hset, hchange⟩ := hrow.setContent (.element (admitted data e))
  obtain ⟨hnodes, Qs, hQs, hchange', hmean⟩ := hn.nodes data hset.below hweight
  obtain ⟨hbelow, hchange''⟩ := hset.change_below hQs hchange'
  rw [← hset.below.children_eq] at hnodes hbelow hchange''
  obtain ⟨hbound, hchange'''⟩ := hbelow.setContent
    (.element (bindAttributes data (imports.contains e.name) (admitted data e)))
  rw [evaluateNode_plain hc hrepeat hadmits hslot]
  refine ⟨.plain hc hrepeat hadmits hslot rfl hnodes, _, hbound,
    hchange.trans (hchange''.trans hchange'''), ?_⟩
  rw [Placed.forest, Placed.tree, hmean]
  rfl

/-- An element that is not repeated is left out, gives way to a text, or keeps its place. -/
theorem Enough.single (hn : Enough imports n) (data : Data)
    (hrow : Row d p before [.node h (.element e) kids] behind)
    (hrepeat : e.attr? repeatName = none)
    (hweight : Forest.weight (Placed.forest kids) ≤ n) :
    Settles imports (.node data h) d (d.evaluateNode imports (n + 1) data h) p before
      [.node h (.element e) kids] behind
      (meanElement imports (meanForest imports (Placed.forest kids)) data e) := by
  rw [meanElement_single imports _ data hrepeat, meanSingle]
  rcases hadmits : admits data (fillAttributes data e) with _ | _
  · have hc : d.content h = .element e := congrArg Node.content hrow.node_eq
    have hrow' : Row d p before ([] ++ [.node h (.element e) kids]) behind := hrow
    obtain ⟨hdetach, hchange⟩ := hrow'.detach
    rw [evaluateNode_dropped hc hrepeat hadmits]
    exact ⟨.dropped hc hrepeat hadmits, [], hdetach, hchange, rfl⟩
  · rw [if_pos rfl]
    rcases hslot : slotText? data (admitted data e) with _ | text
    · exact hn.plain hrow hrepeat hadmits hslot hweight
    · exact slot_spec hrow hrepeat hadmits hslot

/-- **Evaluation ends by itself, and puts what a tree means in its place.** -/
theorem evaluateNode_spec (imports : ImportTable) (n : Nat) : Enough imports n := by
  induction n with
  | zero =>
    rintro d p before ⟨h, c, kids⟩ behind data hrow hweight
    rw [Placed.tree, Tree.weight] at hweight
    omega
  | succ n ih =>
    rintro d p before ⟨h, c, kids⟩ behind data hrow hweight
    rw [Placed.tree] at hweight
    have hc : d.content h = c := congrArg Node.content hrow.node_eq
    rw [Placed.handle, Placed.tree]
    match c with
    | .text s =>
      rw [evaluateNode_text hc]
      obtain ⟨hset, hchange⟩ := hrow.setContent (.text (Placeholder.fill true data s))
      exact ⟨.text hc, _, hset, hchange, rfl⟩
    | .fragment | .comment _ | .doctype _ =>
      rw [show d.evaluateNode imports (n + 1) data h = d by rw [evaluateNode, hc]]
      exact ⟨.other (by simp [hc]) (by simp [hc]), _, hrow, Change.refl d p _, rfl⟩
    | .element e =>
      rw [meanTree]
      rcases hrepeat : e.attr? repeatName with _ | expr
      · refine ih.single data hrow hrepeat ?_
        rw [Tree.weight] at hweight
        omega
      · exact ih.repeated data hrow hrepeat hweight

/-- **Evaluating a document ends by itself.**  It gives what the trees mean, which a walk without
a bound finds below the root. -/
theorem evaluate_spec (imports : ImportTable) (data : Data) (f : Forest) :
    Evaluates imports (.nodes data ((ofForest f).children root)) (ofForest f)
        ((ofForest f).evaluate imports data) ∧
      ((ofForest f).evaluate imports data).forest = meanForest imports f data ∧
      ((ofForest f).evaluate imports data).Unfolds
        (((ofForest f).evaluate imports data).children root) (meanForest imports f data) := by
  obtain ⟨Ps, rfl, hshows, hnodup⟩ := ofForest_shows f
  rw [evaluate]
  generalize ofForest (Placed.forest Ps) = d at hshows ⊢
  have hforest : d.forest = Placed.forest Ps := congrArg Tree.children (hshows.tree_eq hnodup)
  have hrow : Row d root [] Ps [] := .of_shows hshows hnodup
  rw [hforest, hrow.children_eq]
  obtain ⟨hdone, Qs, hQs, hchange, hmean⟩ :=
    Enough.nodes (evaluateNode_spec imports _) data hrow (Nat.le_refl _)
  generalize (Ps.map Placed.handle).foldl _ d = d' at hdone hQs hchange ⊢
  have hnode : d'.node root = ⟨.fragment, none, Qs.map Placed.handle⟩ := by
    rw [hQs.node_of_change hchange, hshows.2.1]
  have hshows' : d'.Shows none (.node root .fragment Qs) := ⟨hQs.parent, hnode, hQs.shows⟩
  have hnodup' : (Placed.node root .fragment Qs).handles.Nodup :=
    List.nodup_cons.2 ⟨fun hmem => (hQs.apart root hmem).1 rfl, hQs.nodup⟩
  refine ⟨hdone, ?_, ?_⟩
  · rw [← hmean]
    exact congrArg Tree.children (hshows'.tree_eq hnodup')
  · rw [hQs.children_eq, ← hmean]
    exact hQs.shows.unfolds

/-- A parsed template ends in one evaluated document, and in one row of trees below its root. -/
theorem evaluate_of_parse {source : String} (hparse : parse source = .ok d) (imports : ImportTable)
    (data : Data) :
    (∃ d', Evaluates imports (.nodes data (d.children root)) d d' ∧
        d'.Unfolds (d'.children root) (d.evaluate imports data).forest) ∧
      ∀ d' f, Evaluates imports (.nodes data (d.children root)) d d' →
        d'.Unfolds (d'.children root) f → (d.evaluate imports data).forest = f := by
  obtain ⟨f, -, rfl⟩ := parse_eq_ok_iff.1 hparse
  obtain ⟨hdone, hforest, hunfolds⟩ := evaluate_spec imports data f
  rw [hforest]
  refine ⟨⟨_, hdone, hunfolds⟩, fun d' f' hdone' hunfolds' => ?_⟩
  obtain rfl := hdone.eq hdone'
  exact hunfolds.eq hunfolds'

/-- **Evaluation in place gives what the template means.**  There is one document that evaluating a
parsed template ends in.  What it has below its root, also for a walk without a bound, are the
meanings of the trees of the template, one after another. -/
theorem evaluate_eq_meaning {source : String} (hparse : parse source = .ok d)
    (imports : ImportTable) (data : Data) :
    (∃! d', Evaluates imports (.nodes data (d.children root)) d d') ∧
      Evaluates imports (.nodes data (d.children root)) d (d.evaluate imports data) ∧
      (d.evaluate imports data).Unfolds ((d.evaluate imports data).children root)
        (d.evaluate imports data).forest ∧
      (d.evaluate imports data).forest =
        (d.children root).flatMap fun h => meanTree imports (d.tree h) data := by
  obtain ⟨f, -, rfl⟩ := parse_eq_ok_iff.1 hparse
  obtain ⟨hdone, hforest, hunfolds⟩ := evaluate_spec imports data f
  refine ⟨⟨_, hdone, fun d' hdone' => hdone'.eq hdone⟩, hdone, ?_, ?_⟩
  · rw [hforest]
    exact hunfolds
  · have htrees := map_tree_ofForest f
    calc ((ofForest f).evaluate imports data).forest = meanForest imports f data := hforest
      _ = f.flatMap (meanTree imports · data) := meanForest_eq_flatMap imports f data
      _ = (((ofForest f).children root).map (ofForest f).tree).flatMap
            (meanTree imports · data) := by rw [htrees]
      _ = ((ofForest f).children root).flatMap
            fun h => meanTree imports ((ofForest f).tree h) data := List.flatMap_map ..

/-- A template in which a repetition, a condition, a slot, a bound attribute and a placeholder
meet. -/
def rowsTemplate : String :=
  "<li use-for=\"r in rows\" use-if=\"r.on\"><slot name=\"r.n\"></slot>" ++
    "<b :id=\"r.n\">\x7b\x7br.n\x7d\x7d</b></li>"

/-- Data with a row that is shown and one that is not. -/
def rowsData : Data :=
  [("rows", .array [.object [("n", .string "<a>"), ("on", .bool true)],
    .object [("n", .string "b"), ("on", .bool false)]])]

/-- The meanings of the rows stand in place, and are written escaped. -/
theorem evaluate_eq_meaning_rows : ∃ d, parse rowsTemplate = .ok d ∧
    (d.evaluate [] rowsData).forest =
      (d.children root).flatMap (fun h => meanTree [] (d.tree h) rowsData) ∧
    (d.evaluate [] rowsData).forest.serialize = "<li>&lt;a&gt;<b id=\"<a>\">&lt;a&gt;</b></li>" := by
  have hmarkup : ((parse rowsTemplate).toOption.map fun d =>
      (d.evaluate [] rowsData).forest.serialize) =
        some "<li>&lt;a&gt;<b id=\"<a>\">&lt;a&gt;</b></li>" := by decide +kernel
  rcases hparse : parse rowsTemplate with fault | d <;> rw [hparse] at hmarkup
  · cases hmarkup
  · obtain ⟨-, -, -, hmeans⟩ := evaluate_eq_meaning hparse [] rowsData
    exact ⟨d, rfl, hmeans, Option.some.inj hmarkup⟩

end Document
end Markup
end HtmlCompose
