/-
# Import tables

The tags that stand for other components, each with the address of its component.
Tags are compared without regard to ASCII case. A table written in a manifest keeps
its entries as they are, in key order, even where two differ in case only; the
first one counts.
-/
import HtmlCompose.Data.Path

namespace HtmlCompose

/-- Tags with component addresses, in order. -/
abbrev ImportTable := List (String × String)

namespace ImportTable

/-- The address that a tag stands for. -/
def get? (t : ImportTable) (tag : String) : Option String :=
  (t.find? fun entry => sameName entry.1 tag).map (·.2)

/-- The tag stands for a component. -/
def contains (t : ImportTable) (tag : String) : Bool := (t.get? tag).isSome

/-- Sets the address of a tag; a tag that is there keeps its place and spelling. -/
def insert (tag uri : String) : ImportTable → ImportTable
  | [] => [(tag, uri)]
  | (existing, old) :: rest =>
    if sameName existing tag then (existing, uri) :: rest
    else (existing, old) :: insert tag uri rest

/-- The address that a value of a manifest denotes: a text itself, anything else as JSON. -/
def address : Json → String
  | .string s => s
  | value => value.print

/-- The table of an object. -/
def ofJson? (value : Json) : Option ImportTable :=
  value.fields?.map fun fields => fields.map fun (tag, target) => (tag, address target)

end ImportTable
end HtmlCompose
