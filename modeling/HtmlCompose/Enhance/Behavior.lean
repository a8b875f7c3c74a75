/-
# Scripts that attach a component's behavior

A component with an enhancement script adds two scripts to the head of the page:
one that registers its behavior under a window property, once for every component,
and one that runs it with the data of a render as soon as the document is there.
In both `</` is written `<\/`, so that no script text ends its own element.
-/
import HtmlCompose.Data.Json.Printer
import HtmlCompose.Head.Asset
import HtmlCompose.Text.Blank

namespace HtmlCompose
namespace Behavior

/-- Script text that cannot close its element. -/
def escapeScript (s : List Char) : List Char :=
  Text.replacePair '<' '/' ['<', '\\', '/'] s

/-- The element identifier of a registration. -/
def registrationId (componentId : String) : String := "component-" ++ componentId

/-- The script that registers a compiled behavior. -/
def registration (globalName componentId compiled : String) : Head.Asset :=
  let body := String.ofList (escapeScript (Text.trimEnd Text.isBlank compiled.toList))
  let window := "window." ++ globalName
  let id := registrationId componentId
  ⟨.script id,
    "<script id=\"" ++ id ++ "\">" ++ window ++ " = " ++ window ++ " || \x7b\x7d;\n" ++
      window ++ "[\"" ++ componentId ++ "\"] = function (data) \x7b\n" ++ body ++ "\n\x7d;</script>"⟩

/-- The script that runs a registered behavior with the data of one render. -/
def bootstrap (globalName componentId : String) (data : Data) : Head.Asset :=
  let argument := String.ofList (escapeScript (Json.object data).write)
  ⟨.unkeyed,
    "<script>document.addEventListener(\"DOMContentLoaded\", function () \x7b window." ++
      globalName ++ "[\"" ++ componentId ++ "\"](" ++ argument ++ "); \x7d);</script>"⟩

end Behavior
end HtmlCompose
