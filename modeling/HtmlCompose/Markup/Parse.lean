/-
# From tokens to trees

The builder holds the elements that are open and what has been put into each.

| lexeme | effect |
| --- | --- |
| text, or a piece without a token | joined to a text before it, else a new text |
| comment, declaration | a new node |
| opening tag | a new node; it stays open unless it is void or closes itself |
| opening tag of a raw-text element | the body up to `</` and its name is its text |
| closing tag | closes up to the innermost open element of that name, if there is one |

Elements still open at the end of the source end there. Only a comment and a
raw-text body that never end are faults.
-/
import HtmlCompose.Markup.Error
import HtmlCompose.Markup.OpenTag
import HtmlCompose.Markup.Token
import HtmlCompose.Markup.Tree

namespace HtmlCompose
namespace Markup

/-- Trees under construction. -/
structure Builder where
  /-- the nodes of the innermost open element, last one first -/
  current : List Tree := []
  /-- the open elements from the innermost out, each with its earlier siblings, last one first -/
  opened : List (Element × List Tree) := []

namespace Builder

/-- Puts a node into the innermost open element. -/
def add (b : Builder) (t : Tree) : Builder :=
  { b with current := t :: b.current }

/-- Puts text into the innermost open element, joined to a text just before it. -/
def addText (b : Builder) (s : List Char) : Builder :=
  match b.current with
  | .node (.text before) kids :: rest =>
    { b with current := .node (.text (before ++ String.ofList s)) kids :: rest }
  | _ => b.add (.ofText (String.ofList s))

/-- Puts an element into the innermost open one and opens it. -/
def push (b : Builder) (e : Element) : Builder :=
  { current := [], opened := (e, b.current) :: b.opened }

/-- Closes the innermost open element. -/
def pop (b : Builder) : Builder :=
  match b.opened with
  | [] => b
  | (e, before) :: rest =>
    { current := .ofElement e b.current.reverse :: before, opened := rest }

/-- Closes a number of elements. -/
def popMany : Nat → Builder → Builder
  | 0, b => b
  | n + 1, b => popMany n b.pop

/-- Closes up to the innermost open element of a name, if one is open. -/
def close (b : Builder) (name : String) : Builder :=
  match b.opened.findIdx? fun (e, _) => e.is name with
  | some i => popMany (i + 1) b
  | none => b

/-- The trees when everything that is open ends. -/
def finish (b : Builder) : Forest :=
  (popMany b.opened.length b).current.reverse

end Builder

/-- The element of an opening tag. -/
def OpenTag.element (t : OpenTag) : Element :=
  ⟨t.name, t.attrs.map fun (n, v) => ⟨n, v, false⟩⟩

/-- What stands before `</` and the name, ASCII case ignored, and the rest from there on. -/
def rawBody? (name : List Char) : List Char → Option (List Char × List Char)
  | [] => none
  | c :: cs =>
    if Text.startsFolded ('<' :: '/' :: Text.foldCase name) (c :: cs) then some ([], c :: cs)
    else (rawBody? name cs).map fun (body, rest) => (c :: body, rest)

/-- A raw body and what follows it are the text. -/
theorem rawBody?_eq_some {name s body rest : List Char} (h : rawBody? name s = some (body, rest)) :
    s = body ++ rest := by
  induction s generalizing body rest with
  | nil => simp [rawBody?] at h
  | cons c s ih =>
    unfold rawBody? at h
    split at h
    · simp only [Option.some.injEq, Prod.mk.injEq] at h
      obtain ⟨rfl, rfl⟩ := h
      rfl
    · simp only [Option.map_eq_some_iff, Prod.mk.injEq, Prod.exists] at h
      obtain ⟨a, b, hab, rfl, rfl⟩ := h
      simp [ih hab]

/-- The span of what is left of a source from a byte offset on. -/
def spanToEnd (offset : Nat) (s : List Char) : Span :=
  ⟨offset, offset + Text.byteLength s⟩

/-- The builder after the lexemes of a source that starts at a byte offset. -/
def parseFrom (b : Builder) (offset : Nat) (s : List Char) : Except Fault Builder :=
  match h : Lexeme.next? s with
  | none => .ok b
  | some (l, rest) =>
    have := Lexeme.next?_length h
    let after := offset + Text.byteLength l.text
    match l.token with
    | some (.text _) => parseFrom (b.addText l.text) after rest
    | some (.comment body) => parseFrom (b.add (.node (.comment body) [])) after rest
    | some (.doctype text) => parseFrom (b.add (.node (.doctype text) [])) after rest
    | some (.closeTag name) => parseFrom (b.close name) after rest
    | some (.openTag raw) =>
      let tag := OpenTag.ofRaw raw
      if isVoid tag.name || tag.selfClosing then
        parseFrom (b.add (.ofElement tag.element [])) after rest
      else if isRawText tag.name then
        match hb : rawBody? tag.name.toList rest with
        | none => .error (.unterminatedRawText tag.name (spanToEnd offset s))
        | some (body, rest') =>
          have : rest'.length ≤ rest.length := by simp [rawBody?_eq_some hb]
          let inside := b.push tag.element
          parseFrom (if body.isEmpty then inside else inside.addText body)
            (after + Text.byteLength body) rest'
      else parseFrom (b.push tag.element) after rest
    | none =>
      if (Text.after? ['<', '!', '-', '-'] l.text).isSome then
        .error (.unterminatedComment (spanToEnd offset s))
      else parseFrom (b.addText l.text) after rest
termination_by s.length

/-- The trees of a source. -/
def parse (source : String) : Except Fault Forest :=
  (parseFrom {} 0 source.toList).map Builder.finish

end Markup
end HtmlCompose
