/-
# Rendering components

One render goes through these steps:

1. the component is loaded and its data is merged
2. a render of the same fingerprint is taken from the cache, once its import chains
   have been checked where they stand now
3. the template is parsed, its directives are carried out and its imports resolved
4. a behavior script is compiled into its head scripts
5. a root gets a generated stylesheet and all assets in its head; a descendant is
   split into assets and body
6. the result is stored in the cache

A component that is reached from itself, or below more components than the limit
allows, fails. The number of components that may still be entered below bounds the
recursion.
-/
import HtmlCompose.Component.Config
import HtmlCompose.Component.Context
import HtmlCompose.Digest.Fingerprint
import HtmlCompose.Directive.Evaluate
import HtmlCompose.Enhance.Behavior
import HtmlCompose.Enhance.Script
import HtmlCompose.Enhance.Stylesheet
import HtmlCompose.Head.Page
import HtmlCompose.Render.Cache
import HtmlCompose.Render.Resolve

namespace HtmlCompose

open Markup

/-- The components that there are, by address. -/
abbrev Library := String → Except LoadError Component

/-- Finished renders by address and fingerprint. -/
abbrev RenderCache := Cache (String × Fingerprint) Rendered

/-- The number of finished renders of an address. -/
def RenderCache.countFor (c : RenderCache) (uri : String) : Nat :=
  Cache.count c fun key => key.1 == uri

/-- What scripts and stylesheets are made with; either may fail. -/
structure Plugins where
  /-- compiles a script -/
  compile : String → Option String := fun source => (Script.compile source).toOption
  /-- makes a stylesheet for a page from a configuration -/
  stylesheet : String → Json → Option String := fun page config =>
    (Stylesheet.generate page config).toOption

/-- A load of a component by the render that has entered it. -/
structure Load where
  /-- the components being rendered then, the loaded one last -/
  chain : List String
  /-- the data that the render was asked for with -/
  custom : Option Data
  mode : RenderMode
deriving Repr

/-- The state of renders that run one inside another. -/
structure Run where
  /-- the components being rendered, outermost first -/
  ancestry : List String := []
  cache : RenderCache := []
  /-- the loads so far, latest first -/
  loads : List Load := []

/-- The address that is loaded. -/
def Load.uri? (l : Load) : Option String := l.chain.getLast?

/-- The addresses loaded so far, first one first. -/
def Run.loadedUris (run : Run) : List String := (run.loads.filterMap Load.uri?).reverse

/-- Renders components of a library. -/
structure Renderer where
  library : Library
  config : Config := {}
  plugins : Plugins := {}

namespace Renderer

/-- The scripts that bring a component's behavior to a page; none when its script does not compile
or holds nothing. -/
def behavior (r : Renderer) (uri : String) (component : Component) (data : Data) : Head.Assets :=
  match component.script.bind r.plugins.compile with
  | none => []
  | some compiled =>
    if isAllBlank compiled then []
    else
      let id := Fingerprint.componentId uri
      [Behavior.registration r.config.enhancementGlobal id compiled,
        Behavior.bootstrap r.config.enhancementGlobal id data]

/-- The stylesheet of a page whose component asks for one; none when it cannot be made or holds
nothing. -/
def style (r : Renderer) (component : Component) (page : Forest) : Head.Assets :=
  match (component.settings.plugin? r.config.cssPlugin).bind
      (r.plugins.stylesheet (Forest.serialize page)) with
  | none => []
  | some css =>
    if isAllBlank css then [] else [⟨.style css, "<style>" ++ css ++ "</style>"⟩]

/-- The page of a resolved root with all assets in its head. -/
def finishRoot (r : Renderer) (uri : String) (component : Component) (data : Data)
    (nodes : Forest) (head : Head.Assets) (paths : List (List String)) :
    Except RenderError Rendered :=
  let assets := (head.extend (r.behavior uri component data)).extend (r.style component nodes)
  match Head.merge nodes assets with
  | (_, some fault) => .error (.markup uri fault)
  | (page, none) => .ok ⟨Forest.serialize page, [], paths⟩

/-- The body of a resolved descendant with its assets after those from below. -/
def finishDescendant (r : Renderer) (uri : String) (component : Component) (data : Data)
    (nodes : Forest) (head : Head.Assets) (paths : List (List String)) : Rendered :=
  let (own, body) := Head.split nodes
  ⟨Forest.serialize body, (head.extend own).extend (r.behavior uri component data), paths⟩

/-- Renders a loaded component without looking into the cache. -/
def renderFresh (r : Renderer) (child : Resolve.RenderChild Run) (uri : String)
    (component : Component) (data : Data) (mode : RenderMode) (run : Run) :
    Except RenderError Rendered × Run :=
  match Document.parse component.template with
  | .error fault => (.error (.markup uri fault), run)
  | .ok template =>
    let imports := component.settings.imports
    let evaluated := (template.evaluate imports data).forest
    let resolved := Resolve.resolveForest ⟨uri, imports, child⟩ evaluated ⟨run, [], []⟩
    let after := resolved.after
    match resolved.failure with
    | some error => (.error error, after.run)
    | none =>
      match mode with
      | .root =>
        (r.finishRoot uri component data resolved.nodes after.head after.paths, after.run)
      | .descendant =>
        (.ok (r.finishDescendant uri component data resolved.nodes after.head after.paths),
          after.run)

/-- The first import chain of a finished render that may not stand below some components: it ends
at one of them, or below too many. -/
def refusal? (r : Renderer) (ancestry : List String) (paths : List (List String)) :
    Option RenderError :=
  paths.findSome? fun path =>
    path.getLast?.bind fun target =>
      if ancestry.contains target then some (.cyclicImport (ancestry ++ path))
      else if r.config.maxDepth < ancestry.length + path.length - 1 then
        some (.depthExceeded target r.config.maxDepth)
      else none

/-- Renders a component that has been entered, so that it is the last of the ancestry. -/
def renderEntered (r : Renderer) (child : Resolve.RenderChild Run) (uri : String)
    (custom : Option Data) (mode : RenderMode) (run : Run) : Except RenderError Rendered × Run :=
  let run := { run with loads := ⟨run.ancestry, custom, mode⟩ :: run.loads }
  match r.library uri with
  | .error error => (.error (.load error), run)
  | .ok component =>
    let data := Context.merge component.settings custom
    let key := (uri, Fingerprint.of data component.template component.script mode)
    match if r.config.renderCache then run.cache.get? key else none with
    | some hit =>
      match r.refusal? run.ancestry hit.importPaths with
      | some error => (.error error, run)
      | none => (.ok hit, run)
    | none =>
      match r.renderFresh child uri component data mode run with
      | (.error error, run) => (.error error, run)
      | (.ok rendered, run) =>
        if r.config.renderCache then
          let cache := run.cache.store key rendered
          (.ok ((cache.get? key).getD rendered), { run with cache })
        else (.ok rendered, run)

/-- Renders a component, given how many more may be entered one inside another. -/
def renderWithin (r : Renderer) : Nat → String → Option Data → RenderMode → Run →
    Except RenderError Rendered × Run
  | 0, uri, _, _, run =>
    if run.ancestry.contains uri then (.error (.cyclicImport (run.ancestry ++ [uri])), run)
    else (.error (.depthExceeded uri r.config.maxDepth), run)
  | n + 1, uri, custom, mode, run =>
    if run.ancestry.contains uri then (.error (.cyclicImport (run.ancestry ++ [uri])), run)
    else
      let child (uri : String) (data : Data) : Run → Except RenderError Rendered × Run :=
        renderWithin r n uri (some data) .descendant
      let (result, run) :=
        r.renderEntered child uri custom mode { run with ancestry := run.ancestry ++ [uri] }
      (result, { run with ancestry := run.ancestry.dropLast })

/-- Renders a component below those that are being rendered. -/
def renderComponent (r : Renderer) (uri : String) (custom : Option Data) (mode : RenderMode)
    (run : Run) : Except RenderError Rendered × Run :=
  r.renderWithin (r.config.maxDepth + 1 - run.ancestry.length) uri custom mode run

/-- Renders a component as the root of a page, with what earlier renders have left. -/
def render (r : Renderer) (uri : String) (custom : Option Data) (run : Run) :
    Except RenderError String × Run :=
  let (result, after) := r.renderComponent uri custom .root { run with ancestry := [] }
  (result.map (·.markup), after)

end Renderer
end HtmlCompose
