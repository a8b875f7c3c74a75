/-
# Component settings

What a manifest declares. Every field may be absent.

| field | form | otherwise |
| --- | --- | --- |
| `data` | an object | anything else counts as empty |
| `imports` | an object | not accepted |
| `plugins` | an object | anything else counts as empty |
| `when` | an object of objects | not accepted |

A manifest is a TOML document or a JSON object. A JSON manifest may also be a list
of at most these four values in this order. Fields of other names are ignored; a
JSON manifest may not have one of the four twice.
-/
import HtmlCompose.Component.ImportTable
import HtmlCompose.Data.Json.Reader
import HtmlCompose.Toml.Document

namespace HtmlCompose

/-- What a component declares beside its template. -/
structure Settings where
  /-- data that a render starts from -/
  data : Data := []
  imports : ImportTable := []
  /-- configurations of plugins by name -/
  plugins : Data := []
  /-- conditions with the data that they put in place -/
  when_ : Record Data := []
deriving Repr, Inhabited

/-- Why a manifest is not accepted. -/
inductive ManifestError where
  | toml
  | json
deriving DecidableEq, Repr

namespace Settings

/-- The entries of an object; anything else has none. -/
def objectOrEmpty (value : Json) : Data := value.fields?.getD []

/-- Conditions with overrides: an object of objects. -/
def overrides? (value : Json) : Option (Record Data) :=
  value.fields?.bind fun fields => fields.mapM fun (condition, v) =>
    v.fields?.map fun overrides => (condition, overrides)

/-- The settings of four fields, each present or absent. -/
def ofFields? (data imports plugins when_ : Option Json) : Option Settings := do
  let imports ← (imports.map ImportTable.ofJson?).getD (some [])
  let when_ ← (when_.map overrides?).getD (some [])
  some {
    data := (data.map objectOrEmpty).getD []
    imports
    plugins := (plugins.map objectOrEmpty).getD []
    when_ }

/-- The names of the fields. -/
def fieldNames : List String := ["data", "imports", "plugins", "when"]

/-- The settings of an object's entries. -/
def ofEntries? (entries : Data) : Option Settings :=
  ofFields? (Record.get? entries "data") (Record.get? entries "imports")
    (Record.get? entries "plugins") (Record.get? entries "when")

/-- No field is given twice. -/
def distinctFields (entries : List (String × Json)) : Bool :=
  fieldNames.all fun name => (entries.filter fun (k, _) => k == name).length ≤ 1

/-- The settings of a JSON manifest. -/
def ofJson (text : String) : Except ManifestError Settings :=
  let settings : Option Settings :=
    match Json.Reader.entries? (fieldNames.contains ·) text.toList with
    | some entries => if distinctFields entries then ofEntries? (Record.ofList entries) else none
    | none =>
      match Json.read? text with
      | some (.array items) =>
        if 4 < items.length then none else ofFields? items[0]? items[1]? items[2]? items[3]?
      | _ => none
  match settings with
  | some s => .ok s
  | none => .error .json

/-- The settings of a TOML manifest. -/
def ofToml (text : String) : Except ManifestError Settings :=
  let entries := (Toml.read? text).map fun entries => Record.ofList (Toml.Value.entriesToJson entries)
  match entries.bind ofEntries? with
  | some s => .ok s
  | none => .error .toml

/-- The configuration of a plugin, if the component uses it. -/
def plugin? (s : Settings) (name : String) : Option Json := Record.get? s.plugins name

end Settings

/-- A component: its settings, its template and an optional enhancement script. -/
structure Component where
  settings : Settings := {}
  template : String
  script : Option String := none
deriving Repr, Inhabited

end HtmlCompose
