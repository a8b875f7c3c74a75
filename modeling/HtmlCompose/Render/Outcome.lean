/-
# What a render gives

A render makes markup together with the head assets that its caller has to carry on
and the import chains below it, or it fails for one of a few reasons.
-/
import HtmlCompose.Component.Settings
import HtmlCompose.Head.Asset
import HtmlCompose.Markup.Error

namespace HtmlCompose

/-- Why a component could not be loaded. -/
inductive LoadError where
  | notFound (uri : String)
  /-- a file is there but could not be read -/
  | unreadable (path : String) (reason : String)
  | malformed (path : String) (error : ManifestError)
deriving DecidableEq, Repr

/-- Why a render failed. -/
inductive RenderError where
  | load (error : LoadError)
  /-- markup of a component never ends -/
  | markup (component : String) (fault : Markup.Fault)
  /-- a component is reached from itself; the chain ends with the repeated address -/
  | cyclicImport (chain : List String)
  | depthExceeded (uri : String) (limit : Nat)
  /-- an attribute that should hold JSON does not -/
  | invalidPayload (component name : String)
deriving DecidableEq, Repr

/-- The name of a manifest's format. -/
def ManifestError.format : ManifestError → String
  | .toml => "TOML"
  | .json => "JSON"

/-- The reason in words. -/
def LoadError.message : LoadError → String
  | .notFound uri => "component not found: " ++ uri
  | .unreadable path reason => "error reading component file " ++ path ++ ": " ++ reason
  | .malformed path error => "malformed manifest " ++ path ++ ": " ++ error.format ++ " error: "

/-- The reason in words. -/
def RenderError.message : RenderError → String
  | .load error => error.message
  | .markup component fault => "markup error in " ++ component ++ ": " ++ fault.message
  | .cyclicImport chain => "cyclic import: " ++ String.intercalate " -> " chain
  | .depthExceeded uri limit =>
    "import depth limit of " ++ toString limit ++ " exceeded at " ++ uri
  | .invalidPayload component name =>
    "invalid payload in attribute '" ++ name ++ "' of " ++ component

/-- A rendered component. The markup of a root is a whole page and carries no assets; that of a
descendant is the body of the component. -/
structure Rendered where
  markup : String
  head : Head.Assets := []
  /-- the chains of imports below the component, from its own import to the component reached -/
  importPaths : List (List String) := []
deriving DecidableEq, Repr

end HtmlCompose
