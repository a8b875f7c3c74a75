/-
# Components in directories

An address names a directory below the base, whatever slashes it starts with.

| file | holds |
| --- | --- |
| `template.html` | the template; without it there is no component |
| `component.toml`, or else `component.json` | the manifest; without one the settings are empty |
| `script.js` | the enhancement script, if there is one |

A component is kept in the load cache under the text of its directory's path, so that
two spellings of one directory are two entries. Only components that could be loaded
are kept, and a load may leave the cache out altogether.
-/
import HtmlCompose.Component.Config
import HtmlCompose.Component.Settings
import HtmlCompose.Files.Path
import HtmlCompose.Render.Cache
import HtmlCompose.Render.Outcome

namespace HtmlCompose

/-- Loaded components by the path of their directory. -/
abbrev LoadCache := Cache String Component

/-- Components in the directories below a base. -/
structure DirectorySource where
  base : String
  cache : LoadCache := []

namespace DirectorySource

open Files

/-- The directory of an address. -/
def directoryOf (s : DirectorySource) (options : LoadOptions) (uri : String) : String :=
  join (options.baseDirectory.getD s.base) (String.ofList (uri.toList.dropWhile (· == '/')))

/-- The text of a file of a component, if there is one. -/
def readFile (files : Reader) (path : String) : Except LoadError (Option String) :=
  match files.optional path with
  | .ok text => .ok text
  | .error failure => .error (.unreadable path failure.message)

/-- Settings with the path of their manifest, should they be malformed. -/
def located (path : String) : Except ManifestError Settings → Except LoadError Settings
  | .ok settings => .ok settings
  | .error error => .error (.malformed path error)

/-- The settings of a component. -/
def readSettings (files : Reader) (directory : String) : Except LoadError Settings := do
  let toml := join directory "component.toml"
  let json := join directory "component.json"
  match ← readFile files toml with
  | some text => located toml (Settings.ofToml text)
  | none =>
    match ← readFile files json with
    | some text => located json (Settings.ofJson text)
    | none => .ok {}

/-- The component in a directory. -/
def readComponent (files : Reader) (uri directory : String) : Except LoadError Component := do
  match ← readFile files (join directory "template.html") with
  | none => .error (.notFound uri)
  | some template =>
    let settings ← readSettings files directory
    let script ← readFile files (join directory "script.js")
    .ok { settings, template, script }

/-- The paths that the load of a directory may look at. -/
def filesOf (directory : String) : List String :=
  ["template.html", "component.toml", "component.json", "script.js"].map (join directory)

/-- Loads a component. -/
def load (s : DirectorySource) (files : Reader) (options : LoadOptions) (uri : String) :
    Except LoadError Component × DirectorySource :=
  let directory := s.directoryOf options uri
  match if options.caching then s.cache.get? directory else none with
  | some component => (.ok component, s)
  | none =>
    match readComponent files uri directory with
    | .error error => (.error error, s)
    | .ok component =>
      (.ok component,
        if options.caching then { s with cache := s.cache.store directory component } else s)

/-- The components as they are now; loading does not change what later loads give. -/
def library (s : DirectorySource) (files : Reader) (options : LoadOptions) (uri : String) :
    Except LoadError Component :=
  (s.load files options uri).1

/-- The source after loads of some addresses, the first one first. -/
def afterLoads (s : DirectorySource) (files : Reader) (options : LoadOptions)
    (uris : List String) : DirectorySource :=
  uris.foldl (fun s uri => (s.load files options uri).2) s

end DirectorySource
end HtmlCompose
