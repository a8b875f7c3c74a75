/-
# Engine configuration

| field | form | default |
| --- | --- | --- |
| `load-options` | a table with the two fields below | the defaults of both |
| `base-directory-override` | text | none |
| `caching-enabled` | truth value | `true` |
| `render-cache-enabled` | truth value | `true` |
| `max-depth` | whole number from `0` up | `32` |
| `css-plugin` | text | `utility-css` |
| `enhancement-global` | text | `__components` |

Configurations are TOML documents. The load options may also be a list of their
two fields in order.
-/
import HtmlCompose.Toml.Document

namespace HtmlCompose

/-- How components are loaded. -/
structure LoadOptions where
  /-- the directory that addresses are resolved in, instead of the source's own -/
  baseDirectory : Option String := none
  /-- loads may be served from the load cache -/
  caching : Bool := true
deriving DecidableEq, Repr, Inhabited

/-- How components are rendered. -/
structure Config where
  load : LoadOptions := {}
  /-- renders may be served from the render cache -/
  renderCache : Bool := true
  /-- how deep imports may nest below the root -/
  maxDepth : Nat := 32
  /-- the plugin name that turns stylesheets on -/
  cssPlugin : String := "utility-css"
  /-- the window property that behaviors are registered under -/
  enhancementGlobal : String := "__components"
deriving DecidableEq, Repr, Inhabited

namespace Config

open Toml (Value)

/-- A text. -/
def text? : Value → Option String
  | .string s => some s
  | _ => none

/-- A truth value. -/
def truth? : Value → Option Bool
  | .boolean b => some b
  | _ => none

/-- A whole number from `0` up. -/
def count? : Value → Option Nat
  | .integer n => if 0 ≤ n then some n.toNat else none
  | _ => none

/-- A field that takes its default when absent. -/
def field {α : Type} (read : Value → Option α) (default : α) : Option Value → Option α
  | some v => read v
  | none => some default

/-- The load options of two fields, each present or absent. -/
def loadOptions? (baseDirectory caching : Option Value) : Option LoadOptions := do
  let baseDirectory ← field (fun v => (text? v).map some) none baseDirectory
  let caching ← field truth? true caching
  some { baseDirectory, caching }

/-- The load options that a value denotes; a date or time has none of their fields. -/
def ofLoad? : Value → Option LoadOptions
  | .table entries =>
    loadOptions? (Record.get? entries "base-directory-override")
      (Record.get? entries "caching-enabled")
  | .array items => loadOptions? items[0]? items[1]?
  | .datetime _ => some {}
  | _ => none

/-- The configuration of a document's entries. -/
def ofEntries? (entries : Record Value) : Option Config := do
  let get := Record.get? entries
  let load ← field ofLoad? {} (get "load-options")
  let renderCache ← field truth? true (get "render-cache-enabled")
  let maxDepth ← field count? 32 (get "max-depth")
  let cssPlugin ← field text? "utility-css" (get "css-plugin")
  let enhancementGlobal ← field text? "__components" (get "enhancement-global")
  some { load, renderCache, maxDepth, cssPlugin, enhancementGlobal }

/-- The configuration of a TOML document. -/
def ofToml? (text : String) : Option Config := (Toml.read? text).bind ofEntries?

end Config
end HtmlCompose
