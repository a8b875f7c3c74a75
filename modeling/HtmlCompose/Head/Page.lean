/-
# The head of a page

Links, styles, scripts, metas, titles and bases at the top of a component belong
into a head. A component that becomes part of another page is *split* into its head
assets and the rest; assets are *merged* into the head of a page, which is made
where there is none:

| the page has | the head |
| --- | --- |
| a `head` element | is that one |
| an `html` element | is new, its first child |
| neither | is part of a new `html` with `head` and `body` around everything |
-/
import HtmlCompose.Head.Asset
import HtmlCompose.Markup.Parse

namespace HtmlCompose
namespace Head

open Markup

/-- Elements that belong into a head when they stand at the top of a component. -/
def headLevelNames : List String := ["link", "style", "script", "meta", "title", "base"]

/-- The tree is an element that belongs into a head. -/
def isHeadLevel (t : Tree) : Bool :=
  t.element?.any fun e => headLevelNames.any e.is

/-- The children of the first element with a tag name. -/
def childrenOf? (f : Forest) (name : String) : Option Forest :=
  (f.find? name).map (·.children)

/-- Where the body of a component is: in `body`, else in `html`, else at the top. -/
def container (f : Forest) : Forest :=
  ((childrenOf? f "body").or (childrenOf? f "html")).getD f

/-- A tree of the container that is part of the body. -/
def isBody (t : Tree) : Bool :=
  !t.content.isDoctype && !t.isElement "head" && !isHeadLevel t

/-- The head assets of a component and the trees of its body. -/
def split (f : Forest) : Assets × Forest :=
  let inHead := ((childrenOf? f "head").getD []).filter (·.element?.isSome)
  let lifted := (container f).filter isHeadLevel
  (((inHead ++ lifted).map Asset.of).foldl Assets.push [], (container f).filter isBody)

mutual
/-- The tree with the children of its first element of a tag name changed, if there is one. -/
def modifyTree? (name : String) (change : Forest → Forest) : Tree → Option Tree
  | .node c kids =>
    if c.element?.any (·.is name) then some (.node c (change kids))
    else (modifyFirst? name change kids).map (.node c ·)

/-- The forest with the children of the first element of a tag name changed, if there is one. -/
def modifyFirst? (name : String) (change : Forest → Forest) : List Tree → Option (List Tree)
  | [] => none
  | t :: rest =>
    match modifyTree? name change t with
    | some t => some (t :: rest)
    | none => (modifyFirst? name change rest).map (t :: ·)
end

/-- The whole page around trees that have neither `html` nor `head`. -/
def promote (f : Forest) : Forest :=
  let doctypes := f.filter (·.content.isDoctype)
  let others := f.filter (!·.content.isDoctype)
  let head := Tree.ofElement ⟨"head", []⟩ (others.filter isHeadLevel)
  let body := Tree.ofElement ⟨"body", []⟩ (others.filter (!isHeadLevel ·))
  (if doctypes.isEmpty then [.node (.doctype "<!DOCTYPE html>") []] else doctypes) ++
    [.ofElement ⟨"html", []⟩ [head, body]]

/-- The page with a head. -/
def ensureHead (f : Forest) : Forest :=
  if (f.find? "head").isSome then f
  else (modifyFirst? "html" (.ofElement ⟨"head", []⟩ [] :: ·) f).getD (promote f)

/-- The trees that assets add to a head with some keys present, up to the first asset whose
markup is at fault. -/
def additions (present : List AssetKey) : Assets → Forest × Option Fault
  | [] => ([], none)
  | a :: rest =>
    if a.key != .unkeyed && present.contains a.key then additions present rest
    else
      match parse a.markup with
      | .error fault => ([], some fault)
      | .ok trees =>
        let (more, fault) := additions (a.key :: present) rest
        (trees ++ more, fault)

/-- The keys of the nodes in a head. -/
def presentKeys (head : Forest) : List AssetKey :=
  (head.map AssetKey.of).filter (· != .unkeyed)

/-- The page with assets at the end of its head, those left out that are there already; and the
fault that stopped it. No assets change nothing. -/
def merge (f : Forest) (assets : Assets) : Forest × Option Fault :=
  if assets.isEmpty then (f, none)
  else
    let page := ensureHead f
    let (added, fault) := additions (presentKeys ((childrenOf? page "head").getD [])) assets
    ((modifyFirst? "head" (· ++ added) page).getD page, fault)

end Head
end HtmlCompose
