/-
# Import names reach as far as their own template

Evaluating a template and asking for its imports look into the import table for the tags
of the template's own elements only: evaluation makes no element that the template does
not have (`tags_meanForest`), and the dialogue about trees is made from these trees, not
from the markup of the answers.  So two tables that say the same of these tags
(`ImportTable.AgreeOn`) lead to the same evaluated trees (`meanForest_congr`) and to the
same dialogue (`ofForest_congr`).

For the same reason every component that a dialogue may ask for, whatever it is
answered, is imported under the tag of one of its trees' own elements
(`asksOnly_ofForest`).  The markup of an answer decides where the content of an instance
goes, and the content keeps the dialogue that it had.
-/
import HtmlCompose.Proofs.Directive.Inert
import HtmlCompose.Proofs.Resolve.Dialogue

namespace HtmlCompose

open Markup Directive

/-! ### The tags of trees -/

namespace Markup.Forest

/-- The tags of all elements, in preorder. -/
def tags (f : Forest) : List String := (preorder f).filterMap fun t => t.element?.map (·.name)

/-- The tags of a tree and those after it: its own, those of its children, those of the others. -/
theorem tags_cons (c : Content) (kids ts : Forest) :
    tags (.node c kids :: ts) = (c.element?.map (·.name)).toList ++ (tags kids ++ tags ts) := by
  rw [tags, tags, tags, preorder, Tree.preorder, List.cons_append, ← List.filterMap_append]
  cases c <;> rfl

/-- The tags of a row are those of its parts. -/
theorem tags_append (f g : Forest) : tags (f ++ g) = tags f ++ tags g := by
  induction f with
  | nil => rfl
  | cons t f ih =>
    obtain ⟨c, kids⟩ := t
    simp only [List.cons_append, tags_cons, ih, List.append_assoc]

/-- A tag occurs among trees just if an element of that name stands somewhere in them. -/
theorem mem_tags {f : Forest} {tag : String} :
    tag ∈ tags f ↔ ∃ t ∈ preorder f, ∃ e, t.element? = some e ∧ e.name = tag := by
  simp only [tags, List.mem_filterMap, Option.map_eq_some_iff]

end Markup.Forest

/-- Two import tables say the same of the tags of some trees. -/
def ImportTable.AgreeOn (imports imports' : ImportTable) (f : Forest) : Prop :=
  ∀ tag ∈ Forest.tags f, imports.get? tag = imports'.get? tag

namespace ImportTable.AgreeOn

variable {imports imports' : ImportTable}

/-- Tables that agree on trees agree on all with no other tags. -/
theorem subset {f g : Forest} (h : AgreeOn imports imports' g)
    (hsub : Forest.tags f ⊆ Forest.tags g) : AgreeOn imports imports' f :=
  fun tag htag => h tag (hsub htag)

/-- Agreement on trees in a row is agreement at the first one, below it, and on the others. -/
theorem cons_iff {c : Content} {kids ts : Forest} :
    AgreeOn imports imports' (.node c kids :: ts) ↔
      (∀ e, c.element? = some e → imports.get? e.name = imports'.get? e.name) ∧
        AgreeOn imports imports' kids ∧ AgreeOn imports imports' ts := by
  simp only [AgreeOn, Forest.tags_cons, List.forall_mem_append]
  refine and_congr ⟨fun h e he => h e.name (by simp [he]), fun h tag htag => ?_⟩ Iff.rfl
  obtain ⟨e, he, rfl⟩ := Option.map_eq_some_iff.1 (Option.mem_toList.1 htag)
  exact h e he

end ImportTable.AgreeOn

/-! ### Evaluation -/

namespace Directive

variable {imports imports' : ImportTable}

/-- What an element means has the tag of the element, and tags from what is below it. -/
theorem tags_meanElement (imports : ImportTable) {below : Data → Forest} {tags : List String}
    (hbelow : ∀ data, Forest.tags (below data) ⊆ tags) {e : Element} (he : e.name ∈ tags)
    (data : Data) : Forest.tags (meanElement imports below data e) ⊆ tags := by
  fun_induction meanElement imports below data e with
  | case1 data e expr hrepeat ih =>
    generalize loopData data expr = items
    induction items with
    | nil => exact List.nil_subset _
    | cons item items ihItems =>
      rw [List.flatMap_cons, Forest.tags_append]
      exact List.append_subset.2 ⟨ih item he, ihItems⟩
  | case2 data e hrepeat =>
    rw [meanSingle]
    split
    · split
      · exact List.nil_subset _
      · rw [Tree.ofElement, Forest.tags_cons]
        refine List.append_subset.2 ⟨?_, List.append_subset.2 ⟨hbelow data, List.nil_subset _⟩⟩
        rw [Content.element?, Option.map_some, name_bindAttributes, Option.toList_some]
        exact List.cons_subset.2 ⟨he, List.nil_subset _⟩
    · exact List.nil_subset _

mutual
/-- Evaluating a template brings in no tags of its own. -/
theorem tags_meanTree (imports : ImportTable) (t : Tree) (data : Data) :
    Forest.tags (meanTree imports t data) ⊆ Forest.tags [t] := by
  obtain ⟨c, kids⟩ := t
  cases c with
  | element e =>
    have hself : Forest.tags [.node (.element e) kids] = e.name :: (Forest.tags kids ++ []) :=
      Forest.tags_cons _ _ _
    rw [meanTree, hself, List.append_nil]
    exact tags_meanElement imports (fun data => List.subset_cons_of_subset _
      (tags_meanForest imports kids data)) List.mem_cons_self data
  | text s =>
    rw [meanTree, Forest.tags_cons, Forest.tags_cons]
    exact List.Subset.refl _
  | _ => exact List.Subset.refl _

/-- **Evaluation makes no element with another tag.** -/
theorem tags_meanForest (imports : ImportTable) (f : Forest) (data : Data) :
    Forest.tags (meanForest imports f data) ⊆ Forest.tags f := by
  match f with
  | [] => exact List.Subset.refl _
  | t :: ts =>
    rw [meanForest, Forest.tags_append, ← List.singleton_append, Forest.tags_append]
    exact List.append_subset.2
      ⟨List.subset_append_of_subset_left _ (tags_meanTree imports t data),
        List.subset_append_of_subset_right _ (tags_meanForest imports ts data)⟩
end

/-- The meaning of an element depends on the tables by whether they hold its name. -/
theorem meanElement_congr (below : Data → Forest) {e : Element}
    (h : imports.contains e.name = imports'.contains e.name) (data : Data) :
    meanElement imports below data e = meanElement imports' below data e := by
  fun_induction meanElement imports below data e with
  | case1 data e expr hrepeat ih =>
    rw [meanElement_repeated imports' below data hrepeat]
    exact List.flatMap_congr fun item _ => ih item h
  | case2 data e hrepeat =>
    rw [meanElement_single imports' below data hrepeat, meanSingle, meanSingle, h]

mutual
/-- **A template means the same under tables that agree on its tags.** -/
theorem meanTree_congr {t : Tree} (h : imports.AgreeOn imports' [t]) (data : Data) :
    meanTree imports t data = meanTree imports' t data := by
  obtain ⟨c, kids⟩ := t
  obtain ⟨hc, hkids, -⟩ := ImportTable.AgreeOn.cons_iff.1 h
  cases c with
  | element e =>
    have hbelow : meanForest imports kids = meanForest imports' kids :=
      funext fun data => meanForest_congr hkids data
    rw [meanTree, meanTree, hbelow]
    exact meanElement_congr _ (congrArg Option.isSome (hc e rfl)) data
  | text s => rw [meanTree, meanTree]
  | _ => rfl

/-- Tables that agree on the tags of trees give the trees the same meaning. -/
theorem meanForest_congr {f : Forest} (h : imports.AgreeOn imports' f) (data : Data) :
    meanForest imports f data = meanForest imports' f data := by
  match f with
  | [] => rfl
  | .node c kids :: ts =>
    obtain ⟨hc, hkids, hts⟩ := ImportTable.AgreeOn.cons_iff.1 h
    have ht : imports.AgreeOn imports' [.node c kids] :=
      ImportTable.AgreeOn.cons_iff.2 ⟨hc, hkids, fun _ h => absurd h List.not_mem_nil⟩
    rw [meanForest, meanForest, meanTree_congr ht data, meanForest_congr hts data]
end

end Directive

/-! ### Dialogues -/

namespace Resolve.Dialogue

mutual
/-- The dialogue of a tree is the same under tables that agree on its tags. -/
theorem ofTree_congr {imports imports' : ImportTable} (component : String) {t : Tree}
    (h : imports.AgreeOn imports' [t]) :
    ofTree component imports t = ofTree component imports' t := by
  obtain ⟨c, kids⟩ := t
  obtain ⟨hc, hkids, -⟩ := ImportTable.AgreeOn.cons_iff.1 h
  unfold ofTree
  rcases he : c.element? with _ | e
  · rfl
  simp only [hc e he, ofForest_congr component hkids, withDialogues_congr component hkids]

/-- **Tables that agree on the tags of trees lead to the same dialogue.** -/
theorem ofForest_congr {imports imports' : ImportTable} (component : String) {ts : List Tree}
    (h : imports.AgreeOn imports' ts) :
    ofForest component imports ts = ofForest component imports' ts := by
  match ts with
  | [] => rfl
  | .node c kids :: ts =>
    obtain ⟨hc, hkids, hts⟩ := ImportTable.AgreeOn.cons_iff.1 h
    have ht : imports.AgreeOn imports' [.node c kids] :=
      ImportTable.AgreeOn.cons_iff.2 ⟨hc, hkids, fun _ h => absurd h List.not_mem_nil⟩
    rw [ofForest, ofForest, ofTree_congr component ht, ofForest_congr component hts]

/-- The dialogues of caller content are the same under tables that agree on its tags. -/
theorem withDialogues_congr {imports imports' : ImportTable} (component : String)
    {ts : List Tree} (h : imports.AgreeOn imports' ts) :
    withDialogues component imports ts = withDialogues component imports' ts := by
  match ts with
  | [] => rfl
  | .node c kids :: ts =>
    obtain ⟨hc, hkids, hts⟩ := ImportTable.AgreeOn.cons_iff.1 h
    have ht : imports.AgreeOn imports' [.node c kids] :=
      ImportTable.AgreeOn.cons_iff.2 ⟨hc, hkids, fun _ h => absurd h List.not_mem_nil⟩
    rw [withDialogues, withDialogues, ofTree_congr component ht, withDialogues_congr component hts]
end

/-! ### What a dialogue may ask for -/

/-- Whatever a dialogue asks for has a property along with the data that it is asked for with,
whatever the answers are. -/
def AsksWith (Q : String → Data → Prop) : Dialogue → Prop
  | done _ => True
  | stop _ _ => True
  | ask uri data _ next => Q uri data ∧ ∀ rendered, (next rendered).AsksWith Q

/-- Every component that a dialogue asks for has a property, whatever it is asked for with. -/
def AsksOnly (P : String → Prop) (d : Dialogue) : Prop := d.AsksWith fun uri _ => P uri

/-- Every error that a dialogue stops with by itself has a property, whatever the answers are. -/
def StopsOnly (E : RenderError → Prop) : Dialogue → Prop
  | done _ => True
  | stop _ error => E error
  | ask _ _ _ next => ∀ rendered, (next rendered).StopsOnly E

/-- A dialogue that asks with one property asks with any weaker one. -/
theorem AsksWith.imp {P Q : String → Data → Prop} (hPQ : ∀ uri data, P uri data → Q uri data)
    {d : Dialogue} (h : d.AsksWith P) : d.AsksWith Q := by
  induction d with
  | done nodes => trivial
  | stop nodes error => trivial
  | ask uri data unchanged next ih =>
    exact ⟨hPQ uri data h.1, fun rendered => ih rendered (h.2 rendered)⟩

/-- A property of dialogues that the parts of a dialogue about trees hand on to the whole, where
every component that an instance stands for has another property, along with the payload of the
instance or with what is wrong with it. -/
structure Handed (P : String → Except RenderError Data → Prop) (C : Dialogue → Prop) : Prop where
  done (nodes : Forest) : C (done nodes)
  invalid {uri : String} {error : RenderError} (h : P uri (.error error)) (nodes : Forest) :
    C (stop nodes error)
  malformed (nodes : Forest) (uri : String) (fault : Fault) : C (stop nodes (.markup uri fault))
  ask {uri : String} {data : Data} (h : P uri (.ok data)) (unchanged : Forest)
    {next : Rendered → Dialogue} (hnext : ∀ rendered, C (next rendered)) :
    C (ask uri data unchanged next)
  andThen {d : Dialogue} (hd : C d) {ok : Forest → Dialogue} (hok : ∀ nodes, C (ok nodes))
    (bad : Forest → Forest) : C (d.andThen ok bad)

/-- Every instance among trees stands for a component that has a property, along with its
payload. -/
def Instances (component : String) (imports : ImportTable)
    (P : String → Except RenderError Data → Prop) (ts : Forest) : Prop :=
  ∀ t ∈ Forest.preorder ts, ∀ e, t.element? = some e → ∀ uri, imports.get? e.name = some uri →
    P uri (payload component e.attrs)

/-- The instances of a row are those of its first tree, of that tree's children and of the rest. -/
theorem instances_cons {component : String} {imports : ImportTable}
    {P : String → Except RenderError Data → Prop} {c : Content} {kids ts : Forest} :
    Instances component imports P (.node c kids :: ts) ↔
      (∀ e, c.element? = some e → ∀ uri, imports.get? e.name = some uri →
          P uri (payload component e.attrs)) ∧
        Instances component imports P kids ∧ Instances component imports P ts := by
  simp only [Instances, Forest.preorder, Tree.preorder, List.forall_mem_append,
    List.forall_mem_cons, and_assoc]
  exact Iff.rfl

variable {component : String} {P : String → Except RenderError Data → Prop} {C : Dialogue → Prop}

/-- An attribute that holds no JSON where it should is what may be wrong with a payload. -/
theorem payload_eq_error {attrs : List Attribute} {error : RenderError}
    (h : payload component attrs = .error error) :
    ∃ name, error = .invalidPayload component name := by
  unfold payload at h
  generalize ([] : Data) = data at h
  induction attrs generalizing data with
  | nil => cases h
  | cons a attrs ih =>
    rw [List.foldlM_cons] at h
    split at h
    · rcases hread : Json.read? a.value with _ | value <;> rw [hread] at h
      · exact ⟨a.name, (Except.error.inj h).symm⟩
      · exact ih _ h
    · exact ih _ h

namespace Handed

/-- A property handed on holds of a dialogue inside an element. -/
theorem inside (h : Handed P C) {d : Dialogue} (hd : C d) (c : Content) :
    C (d.inside c) := by
  rw [Dialogue.inside]
  exact h.andThen hd (fun nodes => h.done [.node c nodes]) _

/-- A property handed on holds of one dialogue followed by another if it holds of both. -/
theorem followedBy (h : Handed P C) {d others : Dialogue} (hd : C d) (hothers : C others)
    (bad : Forest → Forest) : C (d.followedBy others bad) := by
  rw [Dialogue.followedBy]
  exact h.andThen hd (fun nodes => h.andThen hothers (fun more => h.done (nodes ++ more)) _) bad

mutual
/-- A filled tree's dialogue has the property if all content in it has. -/
theorem ofFilled (h : Handed P C)
    (f : Filled { content : Tree × Dialogue // C content.2 }) :
    C (ofFilled (f.mapReceived Subtype.val)) := by
  match f with
  | .own c kids =>
    rw [Filled.mapReceived, Dialogue.ofFilled]
    exact h.inside (ofAllFilled h kids) c
  | .received content =>
    rw [Filled.mapReceived, Dialogue.ofFilled]
    exact content.2

/-- So has the dialogue of filled trees in a row. -/
theorem ofAllFilled (h : Handed P C)
    (fs : List (Filled { content : Tree × Dialogue // C content.2 })) :
    C (ofAllFilled (fs.map (Filled.mapReceived Subtype.val))) := by
  match fs with
  | [] => exact h.done []
  | f :: fs =>
    rw [List.map_cons, Dialogue.ofAllFilled]
    exact h.followedBy (ofFilled h f) (ofAllFilled h fs) id
end

/-- An instance asks for its component, and goes on with its content. -/
theorem ofInstance (h : Handed P C) {uri : String} {e : Element}
    (he : P uri (payload component e.attrs)) {content : List (Tree × Dialogue)}
    (hcontent : ∀ c ∈ content, C c.2) : C (ofInstance component uri e content) := by
  unfold Dialogue.ofInstance
  rcases hpayload : payload component e.attrs with error | data <;> rw [hpayload] at he
  · exact h.invalid he _
  refine h.ask he _ fun rendered => ?_
  dsimp only
  rcases Markup.parse rendered.markup with fault | markup
  · exact h.malformed _ uri fault
  -- where content goes does not depend on what is known of it
  have hfill : Slot.fillForest (fun c : Tree × Dialogue => Slot.target? c.1)
      ((content.attachWith _ hcontent).map Subtype.val) markup = _ :=
    Slot.fillForest_map (fun _ => rfl) _ markup
  rw [List.attachWith_map_subtype_val] at hfill
  simp only [hfill]
  exact h.andThen (h.ofAllFilled _) h.done _

mutual
/-- A property handed on holds of the dialogue of every tree whose instances satisfy the
questions'. -/
theorem ofTree (h : Handed P C) (imports : ImportTable) {t : Tree}
    (ht : Instances component imports P [t]) : C (ofTree component imports t) := by
  obtain ⟨c, kids⟩ := t
  obtain ⟨hc, hkids, -⟩ := instances_cons.1 ht
  unfold Dialogue.ofTree
  rcases he : c.element? with _ | e
  · exact h.done _
  simp only
  rcases hget : imports.get? e.name with _ | uri
  · exact h.inside (ofForest h imports hkids) c
  · exact h.ofInstance (hc e he uri hget) (withDialogues h imports hkids)

/-- **What is handed on holds of the dialogue about trees**, if it is handed on where the instances
are those among the trees. -/
theorem ofForest (h : Handed P C) (imports : ImportTable) {ts : List Tree}
    (hts : Instances component imports P ts) : C (ofForest component imports ts) := by
  match ts with
  | [] => exact h.done []
  | .node c kids :: ts =>
    obtain ⟨hc, hkids, hrest⟩ := instances_cons.1 hts
    have ht : Instances component imports P [.node c kids] :=
      instances_cons.2 ⟨hc, hkids, fun _ h => absurd h List.not_mem_nil⟩
    rw [Dialogue.ofForest]
    exact h.followedBy (ofTree h imports ht) (ofForest h imports hrest) _

/-- A property handed on holds of all caller content whose instances satisfy the questions'. -/
theorem withDialogues (h : Handed P C) (imports : ImportTable) {ts : List Tree}
    (hts : Instances component imports P ts) :
    ∀ c ∈ withDialogues component imports ts, C c.2 := by
  match ts with
  | [] => exact fun c hc => absurd hc List.not_mem_nil
  | .node c kids :: ts =>
    obtain ⟨hc, hkids, hrest⟩ := instances_cons.1 hts
    have ht : Instances component imports P [.node c kids] :=
      instances_cons.2 ⟨hc, hkids, fun _ h => absurd h List.not_mem_nil⟩
    rw [Dialogue.withDialogues, List.forall_mem_cons]
    exact ⟨ofTree h imports ht, withDialogues h imports hrest⟩
end

end Handed

/-- What is asked for, and with what, is handed on from the payloads that can be made. -/
theorem handed_asksWith (Q : String → Data → Prop) :
    Handed (fun uri result => ∀ data, result = .ok data → Q uri data) (AsksWith Q) where
  done _ := trivial
  invalid _ _ := trivial
  malformed _ _ _ := trivial
  ask h _ _ hnext := ⟨h _ rfl, hnext⟩
  andThen {d} hd ok hok bad := by
    induction d with
    | done nodes => exact hok nodes
    | stop nodes error => trivial
    | ask uri data unchanged next ih => exact ⟨hd.1, fun rendered => ih rendered (hd.2 rendered)⟩

/-- Errors of a kind that covers malformed markup are handed on. -/
theorem handed_stopsOnly {E : RenderError → Prop}
    (hmalformed : ∀ uri fault, E (.markup uri fault)) :
    Handed (fun _ result => ∀ error, result = .error error → E error) (StopsOnly E) where
  done _ := trivial
  invalid h _ := h _ rfl
  malformed _ uri fault := hmalformed uri fault
  ask _ _ _ hnext := hnext
  andThen {d} hd ok hok bad := by
    induction d with
    | done nodes => exact hok nodes
    | stop nodes error => exact hd
    | ask uri data unchanged next ih => exact fun rendered => ih rendered (hd rendered)

/-- **What trees ask for is imported under the tags of their own elements.** -/
theorem asksOnly_ofForest (component : String) (imports : ImportTable) {P : String → Prop}
    {ts : List Tree} (h : ∀ tag ∈ Forest.tags ts, ∀ uri, imports.get? tag = some uri → P uri) :
    (ofForest component imports ts).AsksOnly P :=
  (handed_asksWith _).ofForest imports fun t ht e he uri hget _ _ =>
    h e.name (Forest.mem_tags.2 ⟨t, ht, e, he, rfl⟩) uri hget

/-- What trees stop with by themselves is a payload that holds no JSON, or markup that never
ends. -/
theorem stopsOnly_ofForest (component : String) (imports : ImportTable) {E : RenderError → Prop}
    (hinvalid : ∀ name, E (.invalidPayload component name))
    (hmalformed : ∀ uri fault, E (.markup uri fault)) (ts : List Tree) :
    (ofForest component imports ts).StopsOnly E := by
  refine (handed_stopsOnly hmalformed).ofForest imports fun t ht e he uri hget error herror => ?_
  obtain ⟨name, rfl⟩ := payload_eq_error herror
  exact hinvalid name

/-- What holds of the progress and goes on to hold whatever is answered holds at the end; and the
error that a dialogue ends with has what the errors of the answers have, and its own. -/
theorem run_accounts {ρ : Type} {child : RenderChild ρ} {P : String → Prop}
    {E : RenderError → Prop} (Inv : Progress ρ → Prop)
    (hok : ∀ uri data p rendered s, P uri → Inv p → child uri data p.run = (.ok rendered, s) →
      Inv ({ p with run := s }.collect uri rendered))
    (herror : ∀ uri data p error s, P uri → Inv p → child uri data p.run = (.error error, s) →
      E error ∧ Inv { p with run := s })
    {d : Dialogue} (hasks : d.AsksOnly P) (hstops : d.StopsOnly E) (p : Progress ρ) (hp : Inv p) :
    Inv (d.run child p).after ∧ ∀ error, (d.run child p).failure = some error → E error := by
  induction d generalizing p with
  | done nodes => exact ⟨hp, fun error h => by cases h⟩
  | stop nodes error => exact ⟨hp, fun error' h => Option.some.inj h ▸ hstops⟩
  | ask uri data unchanged next ih =>
    rcases hr : child uri data p.run with ⟨error | rendered, s⟩
    · obtain ⟨he, hs⟩ := herror uri data p error s hasks.1 hp hr
      rw [run_ask_error hr]
      exact ⟨hs, fun error' h => Option.some.inj h ▸ he⟩
    · rw [run_ask_ok hr]
      exact ih rendered (hasks.2 rendered) (hstops rendered) _
        (hok uri data p rendered s hasks.1 hp hr)

end Resolve.Dialogue
end HtmlCompose
