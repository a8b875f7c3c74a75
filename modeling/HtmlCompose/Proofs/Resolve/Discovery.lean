/-
# Instances in the order of their discovery

Resolving goes through a document once, and the renders that it makes on the way have an
order that the document tells, given what each component gives:

| what is met | what is found there, in order |
| --- | --- |
| an instance | the instance; then what is found in its content, slot by slot of what its component gives |
| another element | what is found in its children |
| anything else | nothing |

Content that no slot receives is not looked into.  `discoverForest` is this order, as a
function of the trees; `resolveForest_discovered` says that resolving follows it: what it
has collected at the end is what the discovered instances bring, one after another.
-/
import HtmlCompose.Proofs.Head.Assets
import HtmlCompose.Proofs.Resolve.Dialogue

namespace HtmlCompose

open Markup

/-! ### What slots receive -/

namespace Filled

variable {α β : Type}

mutual
/-- The content that the slots of a tree have received, slot by slot. -/
def contents : Filled α → List α
  | .own _ kids => contentsOf kids
  | .received content => [content]

/-- The content that the slots of trees in a row have received. -/
def contentsOf : List (Filled α) → List α
  | [] => []
  | f :: fs => f.contents ++ contentsOf fs
end

mutual
/-- The content received by a filled tree changes with what stands for it. -/
theorem contents_mapReceived (g : α → β) (f : Filled α) :
    (f.mapReceived g).contents = f.contents.map g := by
  match f with
  | .own c kids => rw [mapReceived, contents, contents, contentsOf_map g kids]
  | .received content => rw [mapReceived, contents, contents, List.map_singleton]

/-- The content received by filled trees in a row changes with what stands for it. -/
theorem contentsOf_map (g : α → β) (fs : List (Filled α)) :
    contentsOf (fs.map (mapReceived g)) = (contentsOf fs).map g := by
  match fs with
  | [] => rfl
  | f :: fs =>
    rw [List.map_cons, contentsOf, contentsOf, contents_mapReceived g f, contentsOf_map g fs,
      List.map_append]
end

end Filled

/-- The content that the slots in some markup receive, slot by slot. -/
def Slot.received {α : Type} (target : α → Option String) (content : List α) (markup : Forest) :
    List α :=
  Filled.contentsOf (fillForest target content markup).1

/-- What the slots receive depends on the slots that the content asks for only. -/
theorem Slot.received_map {α β : Type} {target : α → Option String} {target' : β → Option String}
    {g : α → β} (hg : ∀ a, target' (g a) = target a) (content : List α) (markup : Forest) :
    received target' (content.map g) markup = (received target content markup).map g := by
  rw [received, fillForest_map hg, Filled.contentsOf_map, received]

namespace Resolve

/-! ### The order of discovery -/

/-- An instance that has been met: the component it stands for, the data that it hands over, and
what the component gives for it. -/
structure Instance where
  uri : String
  data : Data
  rendered : Rendered
deriving Repr

/-- The chains of imports that an instance brings: to its component, and from there on. -/
def Instance.chains (i : Instance) : List (List String) :=
  [i.uri] :: i.rendered.importPaths.map (i.uri :: ·)

/-- What components give for data. -/
abbrev Answers := String → Data → Except RenderError Rendered

/-- An instance, and after it what is found in the content that its component's slots receive. -/
def discoverInstance (component : String) (answers : Answers) (uri : String) (e : Element)
    (content : List (Tree × Option (List Instance))) : Option (List Instance) :=
  match payload component e.attrs with
  | .error _ => none
  | .ok data =>
    match answers uri data with
    | .error _ => none
    | .ok rendered =>
      match Markup.parse rendered.markup with
      | .error _ => none
      | .ok markup =>
        let received := Slot.received (Slot.target? ·.1) content markup
        (List.flatMapM Prod.snd received).map (⟨uri, data, rendered⟩ :: ·)

mutual
/-- The instances that are found in a tree, in order; none if one of them cannot be replaced. -/
def discoverTree (component : String) (imports : ImportTable) (answers : Answers) :
    Tree → Option (List Instance)
  | .node c kids =>
    match c.element? with
    | none => some []
    | some e =>
      match imports.get? e.name with
      | none => discoverForest component imports answers kids
      | some uri =>
        discoverInstance component answers uri e (withDiscoveries component imports answers kids)

/-- The instances that are found in trees in a row, in order. -/
def discoverForest (component : String) (imports : ImportTable) (answers : Answers) :
    List Tree → Option (List Instance)
  | [] => some []
  | t :: ts => (discoverTree component imports answers t).bind fun first =>
      (discoverForest component imports answers ts).map (first ++ ·)

/-- Trees, each with the instances that are found in it once its turn comes. -/
def withDiscoveries (component : String) (imports : ImportTable) (answers : Answers) :
    List Tree → List (Tree × Option (List Instance))
  | [] => []
  | t :: ts => (t, discoverTree component imports answers t) ::
      withDiscoveries component imports answers ts
end

namespace Dialogue

/-! ### Dialogues ask in this order -/

/-- The instances that a dialogue asks about, if it comes to its end. -/
def instances? (answers : Answers) : Dialogue → Option (List Instance)
  | done _ => some []
  | stop _ _ => none
  | ask uri data _ next =>
    match answers uri data with
    | .error _ => none
    | .ok rendered => (instances? answers (next rendered)).map (⟨uri, data, rendered⟩ :: ·)

variable {answers : Answers}

/-- The instances of a dialogue with a continuation are its own, then those of the continuation. -/
theorem instances?_andThen {ok : Forest → Dialogue} {more : Option (List Instance)}
    (hok : ∀ nodes, (ok nodes).instances? answers = more) (bad : Forest → Forest) (d : Dialogue) :
    (d.andThen ok bad).instances? answers =
      (d.instances? answers).bind fun first => more.map (first ++ ·) := by
  induction d with
  | done nodes => simp [andThen, instances?, hok]
  | stop nodes error => rfl
  | ask uri data unchanged next ih =>
    rw [andThen, instances?, instances?]
    rcases answers uri data with error | rendered
    · rfl
    · simp only [ih]
      cases (next rendered).instances? answers <;> simp [Function.comp_def]

/-- What asks for nothing more adds nothing. -/
theorem instances?_andThen_done {ok : Forest → Dialogue}
    (hok : ∀ nodes, (ok nodes).instances? answers = some []) (bad : Forest → Forest)
    (d : Dialogue) : (d.andThen ok bad).instances? answers = d.instances? answers := by
  rw [instances?_andThen hok]
  simp

/-- Standing inside an element does not change the instances. -/
theorem instances?_inside (c : Content) (d : Dialogue) :
    (d.inside c).instances? answers = d.instances? answers :=
  instances?_andThen_done (fun _ => rfl) _ d

/-- The instances of two dialogues are those of the first, then those of the others. -/
theorem instances?_followedBy (d others : Dialogue) (bad : Forest → Forest) :
    (d.followedBy others bad).instances? answers =
      (d.instances? answers).bind fun first => (others.instances? answers).map (first ++ ·) :=
  instances?_andThen (fun _ => instances?_andThen_done (fun _ => rfl) _ others) bad d

/-- A partial listing of two lists in a row is that of the first, then that of the second. -/
theorem flatMapM_append {α β : Type} (f : α → Option (List β)) (l l' : List α) :
    (l ++ l').flatMapM f =
      (l.flatMapM f).bind fun first => (l'.flatMapM f).map (first ++ ·) := by
  induction l with
  | nil => simp
  | cons a l ih =>
    simp only [List.cons_append, List.flatMapM_cons, ih]
    cases f a <;> cases l.flatMapM f <;> cases l'.flatMapM f <;> simp

/-- A partial listing of a mapped list. -/
theorem flatMapM_map {α β γ : Type} (g : α → β) (f : β → Option (List γ)) (l : List α) :
    (l.map g).flatMapM f = l.flatMapM fun a => f (g a) := by
  induction l with
  | nil => rfl
  | cons a l ih => rw [List.map_cons, List.flatMapM_cons, List.flatMapM_cons, ih]

mutual
/-- Content is asked about in the order in which slots have received it. -/
theorem instances?_ofFilled (f : Filled (Tree × Dialogue)) :
    (ofFilled f).instances? answers = f.contents.flatMapM fun c => c.2.instances? answers := by
  match f with
  | .own c kids => rw [ofFilled, instances?_inside, instances?_ofAllFilled kids, Filled.contents]
  | .received content =>
    rw [ofFilled, Filled.contents, List.flatMapM_cons, List.flatMapM_nil]
    simp

/-- The instances of filled trees are those of the content they have received. -/
theorem instances?_ofAllFilled (fs : List (Filled (Tree × Dialogue))) :
    (ofAllFilled fs).instances? answers =
      (Filled.contentsOf fs).flatMapM fun c => c.2.instances? answers := by
  match fs with
  | [] => rfl
  | f :: fs =>
    rw [ofAllFilled, instances?_followedBy, instances?_ofFilled f, instances?_ofAllFilled fs,
      Filled.contentsOf, flatMapM_append]
end

/-- A tree with the instances that the dialogue about it asks about. -/
def toInstances (answers : Answers) (content : Tree × Dialogue) : Tree × Option (List Instance) :=
  (content.1, content.2.instances? answers)

/-- The instances of an instance's dialogue are those discovered at the instance. -/
theorem instances?_ofInstance (component uri : String) (e : Element)
    (content : List (Tree × Dialogue)) :
    (ofInstance component uri e content).instances? answers =
      discoverInstance component answers uri e (content.map (toInstances answers)) := by
  unfold ofInstance discoverInstance
  rcases payload component e.attrs with error | data
  · rfl
  simp only [instances?]
  rcases answers uri data with error | rendered
  · rfl
  simp only
  rcases Markup.parse rendered.markup with fault | markup
  · rfl
  refine congrArg (Option.map _) ((instances?_andThen_done (fun _ => rfl) _ _).trans ?_)
  rw [instances?_ofAllFilled, Slot.received_map (fun c => rfl), flatMapM_map]
  rfl

mutual
/-- The instances of a tree's dialogue are those discovered in the tree. -/
theorem instances?_ofTree (component : String) (imports : ImportTable) (t : Tree) :
    (ofTree component imports t).instances? answers =
      discoverTree component imports answers t := by
  obtain ⟨c, kids⟩ := t
  unfold ofTree discoverTree
  rcases c.element? with _ | e
  · rfl
  simp only
  rcases imports.get? e.name with _ | uri
  · rw [instances?_inside, instances?_ofForest component imports kids]
  · rw [instances?_ofInstance, withDialogues_map_toInstances component imports kids]

/-- **The dialogue about trees asks about the instances in the order of their discovery.** -/
theorem instances?_ofForest (component : String) (imports : ImportTable) (ts : List Tree) :
    (ofForest component imports ts).instances? answers =
      discoverForest component imports answers ts := by
  match ts with
  | [] => rfl
  | t :: ts =>
    rw [ofForest, instances?_followedBy, instances?_ofTree component imports t,
      instances?_ofForest component imports ts, discoverForest]

/-- The instances of the caller content are those discovered in it. -/
theorem withDialogues_map_toInstances (component : String) (imports : ImportTable)
    (ts : List Tree) :
    (withDialogues component imports ts).map (toInstances answers) =
      withDiscoveries component imports answers ts := by
  match ts with
  | [] => rfl
  | t :: ts =>
    rw [withDialogues, List.map_cons, withDialogues_map_toInstances component imports ts,
      withDiscoveries, toInstances, instances?_ofTree component imports t]
end

/-! ### What resolving collects -/

/-- A dialogue that has come to its end has collected what its instances bring. -/
theorem run_instances? {d : Dialogue} {p : Progress Unit}
    (hend : (d.run (answering answers) p).failure = none) :
    ∃ instances, d.instances? answers = some instances ∧
      (d.run (answering answers) p).after.paths = p.paths ++ instances.flatMap Instance.chains ∧
      (d.run (answering answers) p).after.head =
        p.head.extend (instances.flatMap (·.rendered.head)) := by
  induction d generalizing p with
  | done nodes => exact ⟨[], rfl, (List.append_nil _).symm, rfl⟩
  | stop nodes error => cases hend
  | ask uri data unchanged next ih =>
    rcases ha : answers uri data with error | rendered
    · rw [run_ask_error (s := p.run) (by rw [answering, ha])] at hend
      cases hend
    · rw [run_ask_ok (s := p.run) (by rw [answering, ha])] at hend ⊢
      obtain ⟨instances, hinstances, hpaths, hhead⟩ := ih rendered hend
      refine ⟨⟨uri, data, rendered⟩ :: instances, ?_, ?_, ?_⟩
      · rw [instances?, ha]
        simp only [hinstances, Option.map_some]
      · rw [hpaths, Progress.collect, List.flatMap_cons, List.append_assoc]
        rfl
      · rw [hhead, Progress.collect, List.flatMap_cons, Head.Assets.extend_append]

end Dialogue

/-- **Resolving follows the order of discovery.**  When it comes to its end, all instances that are
discovered have been replaced, and what it has collected are their chains and their head assets,
one instance after another. -/
theorem resolveForest_discovered {component : String} {imports : ImportTable} {answers : Answers}
    {ts : List Tree} {p : Progress Unit}
    (hend : (resolveForest ⟨component, imports, Dialogue.answering answers⟩ ts p).failure = none) :
    ∃ instances, discoverForest component imports answers ts = some instances ∧
      (resolveForest ⟨component, imports, Dialogue.answering answers⟩ ts p).after.paths =
        p.paths ++ instances.flatMap Instance.chains ∧
      (resolveForest ⟨component, imports, Dialogue.answering answers⟩ ts p).after.head =
        p.head.extend (instances.flatMap (·.rendered.head)) := by
  rw [Dialogue.resolveForest_eq_run] at hend ⊢
  rw [← Dialogue.instances?_ofForest]
  exact Dialogue.run_instances? hend

end Resolve
end HtmlCompose
