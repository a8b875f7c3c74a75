/-
# The data that a component is rendered with

The component's own data, overlaid by the caller's, then by the overrides of every
condition that holds. Conditions are all tested before any override is applied, in
key order, so that none switches another on or off.

A style in text form is taken apart into its properties first, so that an override
changes single properties, and is written as text again at the end.
-/
import HtmlCompose.Component.Settings
import HtmlCompose.Data.Style

namespace HtmlCompose
namespace Context

/-- The key of the style. -/
def styleKey : String := "style"

/-- The data with a style in text form taken apart. -/
def expandStyle (data : Data) : Data :=
  match Record.get? data styleKey with
  | some (.string style) => Record.insert styleKey (.object (Style.expand style)) data
  | _ => data

/-- The data with a style of properties written as text. -/
def collapseStyle (data : Data) : Data :=
  match Record.get? data styleKey with
  | some (.object style) => Record.insert styleKey (.string (Style.collapse style)) data
  | _ => data

/-- Puts properties into the style, or makes them the style when it has no properties. -/
def overlayStyle (overrides : Data) (data : Data) : Data :=
  match Record.get? data styleKey with
  | some (.object existing) =>
    Record.insert styleKey (.object (Record.insertAll overrides existing)) data
  | _ => Record.insert styleKey (.object overrides) data

/-- Overrides the style: property by property for a text or an object, as a whole otherwise. -/
def overrideStyle (value : Json) (data : Data) : Data :=
  match value with
  | .string style => overlayStyle (Style.expand style) data
  | .object overrides => overlayStyle overrides data
  | other => Record.insert styleKey other data

/-- Applies one override. -/
def override (data : Data) (entry : String × Json) : Data :=
  if entry.1 = styleKey then overrideStyle entry.2 data
  else Record.insert entry.1 entry.2 data

/-- The own data overlaid by the caller's, with the style taken apart. -/
def base (settings : Settings) (custom : Option Data) : Data :=
  expandStyle (Record.insertAll (custom.getD []) settings.data)

/-- The overrides whose conditions hold, in key order. -/
def active (settings : Settings) (data : Data) : List Data :=
  (settings.when_.filter fun (condition, _) => data.conditionHolds condition).map (·.2)

/-- The data that a component is rendered with. -/
def merge (settings : Settings) (custom : Option Data) : Data :=
  let data := base settings custom
  collapseStyle ((active settings data).foldl (fun data overrides => overrides.foldl override data) data)

end Context
end HtmlCompose
