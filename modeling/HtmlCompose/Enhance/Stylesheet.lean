/-
# Stylesheets from utility classes

A class used in a document becomes one rule when the table has declarations for it.
The table is configured by an object (or a list in field order):

| field | form | when absent |
| --- | --- | --- |
| `preflight` | text or `null`, put in front | nothing |
| `defaults` | whether the built-in rules count | `true` |
| `rules` | class names with declarations | none |

`null` and `true` stand for the empty configuration. Rules stand in the order in
which the classes are first used; a configured rule wins over a built-in one.
-/
import HtmlCompose.Data.Json
import HtmlCompose.Markup.Parse
import HtmlCompose.Text.Blank

namespace HtmlCompose
namespace Stylesheet

/-- Why no stylesheet can be made. -/
inductive Fault where
  /-- the configuration has another form -/
  | configuration
  /-- the document's markup is at fault -/
  | markup (fault : Markup.Fault)
deriving DecidableEq, Repr

/-- Rules that are always known unless defaults are turned off. -/
def builtin : Record String :=
  Record.ofList [
    ("block", "display: block"),
    ("inline-block", "display: inline-block"),
    ("hidden", "display: none"),
    ("flex", "display: flex"),
    ("grid", "display: grid"),
    ("flex-col", "flex-direction: column"),
    ("flex-row", "flex-direction: row"),
    ("items-center", "align-items: center"),
    ("justify-center", "justify-content: center"),
    ("justify-between", "justify-content: space-between"),
    ("gap-2", "gap: 0.5rem"),
    ("gap-4", "gap: 1rem"),
    ("p-2", "padding: 0.5rem"),
    ("p-4", "padding: 1rem"),
    ("m-0", "margin: 0"),
    ("mx-auto", "margin-left: auto; margin-right: auto"),
    ("font-bold", "font-weight: 700"),
    ("text-center", "text-align: center"),
    ("text-sm", "font-size: 0.875rem"),
    ("text-lg", "font-size: 1.125rem"),
    ("w-full", "width: 100%"),
    ("h-full", "height: 100%")]

/-- What the plugin is configured with. -/
structure Config where
  preflight : Option String := none
  defaults : Bool := true
  rules : Record String := []
deriving Repr

/-- A record of texts. -/
def texts? (value : Json) : Option (Record String) :=
  value.fields?.bind fun fields => fields.mapM fun (k, v) => v.string?.map fun s => (k, s)

/-- An optional text. -/
def optionalText? : Json → Option (Option String)
  | .null => some none
  | .string s => some (some s)
  | _ => none

/-- A truth value. -/
def truth? : Json → Option Bool
  | .bool b => some b
  | _ => none

/-- The configuration of three fields, each present or absent. -/
def Config.ofFields? (preflight defaults rules : Option Json) : Option Config := do
  let preflight ← (preflight.map optionalText?).getD (some none)
  let defaults ← (defaults.map truth?).getD (some true)
  let rules ← (rules.map texts?).getD (some [])
  some { preflight, defaults, rules }

/-- The configuration that a value denotes. -/
def Config.ofJson? : Json → Option Config
  | .null | .bool true => some {}
  | .object fields =>
    ofFields? (Record.get? fields "preflight") (Record.get? fields "defaults")
      (Record.get? fields "rules")
  | .array items => if 3 < items.length then none else ofFields? items[0]? items[1]? items[2]?
  | _ => none

/-- The declarations of a class. -/
def Config.rule? (config : Config) (name : String) : Option String :=
  match Record.get? config.rules name with
  | some declarations => some declarations
  | none => if config.defaults then Record.get? builtin name else none

/-- The classes used by the elements of a forest, in order, repetitions included. -/
def usedClasses (f : Markup.Forest) : List (List Char) :=
  (Markup.Forest.preorder f).flatMap fun t =>
    match t.element?.bind (·.attr? "class") with
    | some classes => Text.words classes.toList
    | none => []

/-- The items of a list at their first occurrence. -/
def firstOccurrences : List (List Char) → List (List Char) → List (List Char)
  | _, [] => []
  | seen, c :: rest =>
    if seen.contains c then firstOccurrences seen rest else c :: firstOccurrences (c :: seen) rest

/-- A class name as part of a selector: a backslash before anything but ASCII letters, digits,
`-` and `_`. -/
def escapeClass (name : List Char) : List Char :=
  name.flatMap fun c => if c.isAlphanum || c == '-' || c == '_' then [c] else ['\\', c]

/-- The rule of a class. -/
def writeRule (name : List Char) (declarations : String) : List Char :=
  '.' :: escapeClass name ++ [' ', '\x7b', ' '] ++ Text.trim declarations.toList ++ [' ', '\x7d', '\n']

/-- The text in front of the rules. -/
def writePreflight : Option String → List Char
  | some text =>
    let trimmed := Text.trim text.toList
    if trimmed.isEmpty then [] else trimmed ++ ['\n']
  | none => []

/-- The stylesheet of a document. -/
def write (config : Config) (f : Markup.Forest) : List Char :=
  writePreflight config.preflight ++
    (firstOccurrences [] (usedClasses f)).flatMap fun name =>
      match config.rule? (String.ofList name) with
      | some declarations => writeRule name declarations
      | none => []

/-- The stylesheet for the classes used in a document. -/
def generate (markup : String) (config : Json) : Except Fault String :=
  match Config.ofJson? config with
  | none => .error .configuration
  | some config =>
    match Markup.parse markup with
    | .error fault => .error (.markup fault)
    | .ok f => .ok (String.ofList (write config f))

end Stylesheet
end HtmlCompose
