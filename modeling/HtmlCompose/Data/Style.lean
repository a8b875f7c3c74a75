/-
# Style declarations as a record

`"color: red; margin: 0"` is the record of `color` and `margin`. Expanding cuts a
text at its semicolons and each piece at its first colon; collapsing joins the
entries in key order, with names in kebab case and without null values.
-/
import HtmlCompose.Data.Path

namespace HtmlCompose
namespace Style

/-- The property and the value of one declaration, if it has both. -/
def declaration? (text : List Char) : Option (String × Json) :=
  match Text.cutAt [':'] text with
  | some (name, value) =>
    let name := Text.trim name
    let value := Text.trim value
    if name.isEmpty || value.isEmpty then none
    else some (String.ofList name, .string (String.ofList value))
  | none => none

/-- The properties that a text declares; the last declaration of a property wins. -/
def expand (text : String) : Data :=
  Record.ofList ((text.toList.splitOn ';').filterMap declaration?)

/-- A name in kebab case: a hyphen and a small letter for each ASCII capital. -/
def kebabCase (name : List Char) : List Char :=
  name.flatMap fun c => if c.isUpper then ['-', c.toLower] else [c]

/-- One declaration as text. -/
def writeDeclaration (name : String) (value : Json) : List Char :=
  kebabCase name.toList ++ [':', ' '] ++ value.toText.toList

/-- The declarations of a record as text. -/
def collapse (style : Data) : String :=
  let declared := style.filter fun (_, value) => !value.isNull
  String.ofList (List.intercalate [';', ' '] (declared.map fun (n, v) => writeDeclaration n v))

end Style
end HtmlCompose
