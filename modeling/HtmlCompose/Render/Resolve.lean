/-
# Resolving imports

An element whose tag names an imported component is an *instance* of it. It is
replaced by the component's markup, rendered with the instance's attributes as data
and with the instance's content in its slots. Only then is the content that has
found a slot resolved in turn, against the same imports; the component's own markup
has been resolved where it was rendered.

What a failure leaves behind:

| failure | the instance |
| --- | --- |
| in its attributes, its component or its markup | stays as it was |
| in the content that its slots received | keeps the content that no slot received |

Everything before it stays resolved and everything after it is left alone.

The state that renders run in is of any type here.
-/
import HtmlCompose.Component.ImportTable
import HtmlCompose.Data.Json.Reader
import HtmlCompose.Markup.Parse
import HtmlCompose.Render.Outcome
import HtmlCompose.Render.Slot

namespace HtmlCompose
namespace Resolve

open Markup

variable {ρ : Type}

/-- How an imported component is rendered with data. -/
abbrev RenderChild (ρ : Type) := String → Data → ρ → Except RenderError Rendered × ρ

/-- The component whose document is resolved, and how its imports are rendered. -/
structure Importer (ρ : Type) where
  component : String
  imports : ImportTable
  child : RenderChild ρ

/-- What resolving has collected so far. -/
structure Progress (ρ : Type) where
  run : ρ
  /-- the head assets of the components rendered so far -/
  head : Head.Assets := []
  /-- the import chains below the component -/
  paths : List (List String) := []

/-- The trees that take the place of some trees, and why resolving stopped if it did. -/
structure Resolved (ρ : Type) where
  nodes : Forest
  failure : Option RenderError := none
  after : Progress ρ

/-- How trees are resolved once their turn comes. -/
abbrev Action (ρ : Type) := Progress ρ → Resolved ρ

/-- The data that an instance hands to its component: its attributes, decoded where they hold
JSON; the last one of a name counts. -/
def payload (component : String) (attrs : List Attribute) : Except RenderError Data :=
  attrs.foldlM (fun data a =>
    if a.encoded then
      match Json.read? a.value with
      | some value => .ok (Record.insert a.name value data)
      | none => .error (.invalidPayload component a.name)
    else .ok (Record.insert a.name (.string a.value) data)) []

/-- The progress after a component has been rendered. -/
def Progress.collect (p : Progress ρ) (uri : String) (rendered : Rendered) : Progress ρ :=
  { p with
    head := Head.Assets.extend p.head rendered.head
    paths := p.paths ++ [uri] :: rendered.importPaths.map (uri :: ·) }

/-- Trees that stay as they are. -/
def keep (f : Forest) : Action ρ := fun p => ⟨f, none, p⟩

mutual
/-- Resolves the content received by slots, in order. -/
def resolveFilled : Filled (Tree × Action ρ) → Action ρ
  | .own c kids => fun p =>
    let r := resolveAllFilled kids p
    { r with nodes := [.node c r.nodes] }
  | .received content => content.2

/-- Resolves the content received by slots in trees in a row, until a failure. -/
def resolveAllFilled : List (Filled (Tree × Action ρ)) → Action ρ
  | [] => keep []
  | t :: ts => fun p =>
    let r := resolveFilled t p
    match r.failure with
    | some _ => r
    | none =>
      let others := resolveAllFilled ts r.after
      { others with nodes := r.nodes ++ others.nodes }
end

/-- Replaces an instance by its component, given its content with what resolves it. -/
def expand (i : Importer ρ) (uri : String) (e : Element) (content : List (Tree × Action ρ)) :
    Action ρ := fun p =>
  let unchanged : Forest := [.ofElement e (content.map (·.1))]
  match payload i.component e.attrs with
  | .error error => ⟨unchanged, some error, p⟩
  | .ok data =>
    match i.child uri data p.run with
    | (.error error, run) => ⟨unchanged, some error, { p with run }⟩
    | (.ok rendered, run) =>
      let p := { p with run }.collect uri rendered
      match Markup.parse rendered.markup with
      | .error fault => ⟨unchanged, some (.markup uri fault), p⟩
      | .ok markup =>
        let (filled, left) := Slot.fillForest (Slot.target? ·.1) content markup
        let r := resolveAllFilled filled p
        match r.failure with
        | some _ => { r with nodes := [.ofElement e (left.map (·.1))] }
        | none => r

mutual
/-- Resolves the imports in a tree. -/
def resolveTree (i : Importer ρ) : Tree → Action ρ
  | .node c kids =>
    match c.element? with
    | none => keep [.node c kids]
    | some e =>
      match i.imports.get? e.name with
      | none => fun p =>
        let r := resolveForest i kids p
        { r with nodes := [.node c r.nodes] }
      | some uri => expand i uri e (withActions i kids)

/-- Resolves the imports in trees in a row, until a failure. -/
def resolveForest (i : Importer ρ) : List Tree → Action ρ
  | [] => keep []
  | t :: ts => fun p =>
    let r := resolveTree i t p
    match r.failure with
    | some _ => { r with nodes := r.nodes ++ ts }
    | none =>
      let others := resolveForest i ts r.after
      { others with nodes := r.nodes ++ others.nodes }

/-- Trees with what resolves each of them. -/
def withActions (i : Importer ρ) : List Tree → List (Tree × Action ρ)
  | [] => []
  | t :: ts => (t, resolveTree i t) :: withActions i ts
end

end Resolve
end HtmlCompose
