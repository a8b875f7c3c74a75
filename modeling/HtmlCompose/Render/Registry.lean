/-
# Components in memory

A registry holds components by address and counts how often each address has been
loaded, whether there is a component or not.
-/
import HtmlCompose.Render.Renderer

namespace HtmlCompose

/-- Components by address, with the loads so far. -/
structure Registry where
  components : Record Component := []
  /-- the loaded addresses, latest first -/
  loads : List String := []

namespace Registry

/-- Registers a component in the place of an earlier one. -/
def insert (g : Registry) (uri : String) (component : Component) : Registry :=
  { g with components := Record.insert uri component g.components }

/-- How often an address has been loaded. -/
def loadCount (g : Registry) (uri : String) : Nat := g.loads.count uri

/-- The components as a library. -/
def library (g : Registry) : Library := fun uri =>
  match Record.get? g.components uri with
  | some component => .ok component
  | none => .error (.notFound uri)

/-- What is found is one of the components, under its address. -/
theorem mem_of_library {g : Registry} {uri : String} {component : Component}
    (h : g.library uri = .ok component) : (uri, component) ∈ g.components := by
  unfold library Record.get? at h
  rcases hfind : g.components.find? (fun entry => entry.1 == uri) with _ | ⟨key, value⟩ <;>
    rw [hfind] at h
  · cases h
  · obtain rfl := Except.ok.inj h
    have hkey := List.find?_some hfind
    obtain rfl : key = uri := eq_of_beq hkey
    exact List.mem_of_find?_eq_some hfind

/-- The registry after the loads of a run. -/
def record (g : Registry) (run : Run) : Registry :=
  { g with loads := run.loadedUris.reverse ++ g.loads }

end Registry
end HtmlCompose
