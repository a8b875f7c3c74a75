/-
# Head assets

What a component brings to the head of a page, as text with an identity:

| element | identity |
| --- | --- |
| `link` | its `href` |
| `script` | its `id`, or else its `src` |
| `style` | its text |
| anything else | none |

A list of assets holds each identity once, the first asset of it; assets without an
identity are always kept.
-/
import HtmlCompose.Markup.Serialize

namespace HtmlCompose
namespace Head

open Markup

/-- What makes two assets the same. -/
inductive AssetKey where
  | link (href : String)
  | script (name : String)
  | style (text : String)
  /-- no identity -/
  | unkeyed
deriving DecidableEq, Repr

/-- The identity of a node in a head. -/
def AssetKey.of (t : Tree) : AssetKey :=
  match t.element? with
  | none => .unkeyed
  | some e =>
    if e.is "link" then ((e.attr? "href").map AssetKey.link).getD .unkeyed
    else if e.is "script" then
      (((e.attr? "id").or (e.attr? "src")).map AssetKey.script).getD .unkeyed
    else if e.is "style" then .style (Forest.textContent [t])
    else .unkeyed

/-- Markup for a head with its identity. -/
structure Asset where
  key : AssetKey
  markup : String
deriving DecidableEq, Repr

/-- The asset of a node. -/
def Asset.of (t : Tree) : Asset := ⟨.of t, t.serialize⟩

/-- Assets in order, each identity once. -/
abbrev Assets := List Asset

namespace Assets

/-- An asset with a key is in the list. -/
def hasKey (l : Assets) (key : AssetKey) : Bool := l.any (·.key == key)

/-- The list has room for an asset. -/
def accepts (l : Assets) (a : Asset) : Bool := a.key == .unkeyed || !hasKey l a.key

/-- Adds an asset at the end unless its identity is there already. -/
def push (l : Assets) (a : Asset) : Assets := if accepts l a then l ++ [a] else l

/-- Adds assets one after another. -/
def extend (l : Assets) (others : Assets) : Assets := others.foldl push l

end Assets
end Head
end HtmlCompose
