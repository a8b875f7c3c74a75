/-
# What the command does

The configuration is read first. A check then loads the component and parses its
template; otherwise the data is read, the component rendered, and the page printed
or written to a file. The first thing that goes wrong ends the run with its message
on the error stream.

| exit code | meaning |
| --- | --- |
| 0 | done |
| 1 | failed |
| 2 | the arguments are not correct |
-/
import HtmlCompose.CommandLine.Options
import HtmlCompose.Files.Source
import HtmlCompose.Markup.Report
import HtmlCompose.Render.Renderer

namespace HtmlCompose
namespace CommandLine

open Files

/-- What a finished run leaves. -/
structure Result where
  code : Nat
  output : String := ""
  errors : String := ""
deriving DecidableEq, Repr

/-- A run that ends with a message. -/
def Result.failure (message : String) : Result := ⟨1, "", message ++ "\n"⟩

/-- A run up to the point where a page is to be written to a file. -/
inductive Outcome where
  | finished (result : Result)
  | writing (path page : String)
deriving DecidableEq, Repr

/-- The configuration that is asked for. -/
def configuration (files : Reader) (o : Options) : Except String Config := do
  let config ← match o.config with
    | none => .ok {}
    | some path =>
      let failed (why : String) : Except String Config :=
        .error ("Error loading config '" ++ path ++ "': " ++ why)
      match files path with
      | .error failure => failed ("Failed to read config file: " ++ failure.message)
      | .ok text =>
        match Config.ofToml? text with
        | some config => .ok config
        | none => failed "Failed to parse config TOML: "
  .ok (if o.noCache then
    { config with load := { config.load with caching := false }, renderCache := false }
  else config)

/-- The data that is given for the component. -/
def givenData (files : Reader) (o : Options) : Except String (Option Data) := do
  let text ← match o.data, o.dataFile with
    | some text, _ => .ok (some text)
    | none, none => .ok none
    | none, some path =>
      match files path with
      | .ok text => .ok (some text)
      | .error failure =>
        .error ("Error reading data file '" ++ path ++ "': " ++ failure.message)
  match text with
  | none => .ok none
  | some text =>
    match Json.read? text with
    | some (.object data) => .ok (some data)
    | some _ => .error "Error: custom data must be a JSON object"
    | none => .error "Error parsing custom data: "

/-- The message for a failed render. -/
def describe : RenderError → String
  | .load (.notFound uri) => "Error: component '" ++ uri ++ "' not found"
  | error => "Error: " ++ error.message

/-- Checks the template of a component. -/
def check (library : Library) (uri : String) : Result :=
  match library uri with
  | .error error => .failure ("Error: " ++ error.message)
  | .ok component =>
    match Markup.parse component.template with
    | .ok _ => ⟨0, "", uri ++ ": ok\n"⟩
    | .error fault => .failure (fault.report component.template (uri ++ "/template.html"))

/-- What a run comes to, and the addresses that it has loaded. -/
def run (files : Reader) (o : Options) : Outcome × List String :=
  match configuration files o with
  | .error message => (.finished (.failure message), [])
  | .ok config =>
    let library := DirectorySource.library ⟨o.root, []⟩ files config.load
    if o.check then (.finished (check library o.uri), [o.uri])
    else
      match givenData files o with
      | .error message => (.finished (.failure message), [])
      | .ok data =>
        let (result, after) := Renderer.render ⟨library, config, {}⟩ o.uri data {}
        let outcome := match result, o.output with
          | .error error, _ => .finished (.failure (describe error))
          | .ok page, none => .finished ⟨0, page ++ "\n", ""⟩
          | .ok page, some path => .writing path page
        (outcome, after.loadedUris)

/-- The end of a run whose page has been written, or could not be. -/
def written (path : String) : Except Failure Unit → Result
  | .ok () => ⟨0, "", ""⟩
  | .error failure => .failure ("Error writing '" ++ path ++ "': " ++ failure.message)

/-- The paths that a run may look at once it has loaded some addresses. -/
def pathsOf (files : Reader) (o : Options) (uris : List String) : List String :=
  let load : LoadOptions := match configuration files o with
    | .ok config => config.load
    | .error _ => {}
  o.config.toList ++ o.dataFile.toList ++ uris.flatMap fun uri =>
    DirectorySource.filesOf (DirectorySource.directoryOf ⟨o.root, []⟩ load uri)

end CommandLine
end HtmlCompose
