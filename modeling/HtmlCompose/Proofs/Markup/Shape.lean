/-
# Trees that markup can say

Not every tree can be written so that reading gives it back.  What a node has to be
like is told here node by node, from its content and the row of trees directly below
it.  Raw text is the exception: nothing is asked of what lies below an element that
holds raw text, for it is read as characters.

| property | of a node |
| --- | --- |
| `Formed` | names, comments and declarations are such as reading can find, only elements have something below them, and void elements have not |
| `Clean` | no name holds a quote or `>`, no text a `<`, and no raw text the closing tag of its element |
| `Settled` | the opening tag ends where it should, the closing tag too, raw text holds no closing tag of its element, and every `<` of a text starts nothing |
| `Tidy` | of the row below: no text is empty, and no two texts are neighbours |

A clean tree is a settled one (`Clean.settled`).
-/
import HtmlCompose.Markup.Parse
import HtmlCompose.Markup.Serialize
import Mathlib

namespace HtmlCompose
namespace Markup

/-! ### Contents -/

/-- The content is an element whose body is raw text. -/
def Content.holdsRawText : Content → Bool
  | .element e => isRawText e.name
  | _ => false

/-- A declaration: `<!`, a character other than `-`, and anything up to the first `>`. -/
def isDeclaration : List Char → Bool
  | '<' :: '!' :: c :: rest =>
    c != '-' && rest.getLast? == some '>' && !rest.dropLast.contains '>'
  | _ => false

/-- The end of a comment. -/
def commentEnd : List Char := ['-', '-', '>']

/-- A text holds the start of the closing tag of an element, ASCII case ignored. -/
def holdsCloser (name : String) (s : List Char) : Bool :=
  Text.occurs ('<' :: '/' :: Text.foldCase name.toList) (Text.foldCase s)

/-- A character that neither quotes nor ends what stands in a tag. -/
def isUnquoting (c : Char) : Bool := c != '>' && c != '"' && c != '\''

/-- What follows a `<` in a text, up to the end of the text, makes it start nothing, also when
another `<` comes after the text. -/
def isStray : List Char → Bool
  | '!' :: '-' :: '-' :: _ => false
  | '!' :: '-' :: _ => true
  | '!' :: _ => false
  | '/' :: c :: _ => !c.isAlpha
  | c :: _ => !c.isAlpha
  | [] => true

/-- Every `<` of a text starts nothing. -/
def isHarmless : List Char → Bool
  | [] => true
  | c :: s => (c != '<' || isStray s) && isHarmless s

/-- A lexeme that is read as text: one with a text as its token, or one without a token that does
not open a comment. -/
def Lexeme.isText (l : Lexeme) : Bool :=
  match l.token with
  | some (.text _) => true
  | some _ => false
  | none => (Text.after? ['<', '!', '-', '-'] l.text).isNone

namespace Element

/-- The names of an element are such as reading can find. -/
structure Formed (e : Element) : Prop where
  letter : e.name.toList.head?.any Char.isAlpha = true
  name : ∀ c ∈ e.name.toList, OpenTag.isGap c = false
  attrs : ∀ a ∈ e.attrs, a.name.toList ≠ [] ∧ ∀ c ∈ a.name.toList, OpenTag.isNameChar c = true

/-- The name of a well-formed element starts with a letter. -/
theorem Formed.exists_cons {e : Element} (h : e.Formed) :
    ∃ c s, e.name.toList = c :: s ∧ c.isAlpha = true := by
  have hletter := h.letter
  rcases hname : e.name.toList with _ | ⟨c, s⟩
  · simp [hname] at hletter
  · exact ⟨c, s, rfl, by simpa [hname] using hletter⟩

/-- The names of an element hold neither quotes nor `>`. -/
structure Clean (e : Element) : Prop where
  name : ∀ c ∈ e.name.toList, isUnquoting c = true
  attrs : ∀ a ∈ e.attrs, ∀ c ∈ a.name.toList, isUnquoting c = true

/-- The opening tag, read by itself, is an opening tag as a whole. -/
def OpensWell (e : Element) : Prop :=
  Lexeme.next? (writeOpenTag e) =
    some (⟨writeOpenTag e, some (.openTag (String.ofList (writeOpenTag e)))⟩, [])

end Element

/-! ### Nodes -/

/-- The body of raw text that a row of trees is: nothing, or one text. -/
def rawText? : Forest → Option String
  | [] => some ""
  | [.node (.text s) []] => some s
  | _ => none

namespace Content

/-- A node that reading can find. -/
def Formed : Content → Forest → Prop
  | .fragment, _ => False
  | .text _, kids => kids = []
  | .comment body, kids => kids = [] ∧ Text.occurs commentEnd body.toList = false
  | .doctype s, kids => kids = [] ∧ isDeclaration s.toList = true
  | .element e, kids => e.Formed ∧ (isVoid e.name = true → kids = [])

/-- A node without anything that could be taken for markup. -/
def Clean : Content → Forest → Prop
  | .text s, _ => '<' ∉ s.toList
  | .element e, kids => e.Clean ∧ (isRawText e.name = true →
      (rawText? kids).any (fun s => !holdsCloser e.name s.toList) = true)
  | _, _ => True

/-- A node whose markup is read as what it is. -/
def Settled : Content → Forest → Prop
  | .text s, _ => isHarmless s.toList = true
  | .element e, kids => e.OpensWell ∧ (isVoid e.name = false → '>' ∉ e.name.toList) ∧
      (isRawText e.name = true → holdsCloser e.name (Forest.write kids) = false)
  | _, _ => True

end Content

/-! ### Trees -/

mutual
/-- Every node of a tree outside raw text has a property. -/
def Tree.OutsideRaw (p : Content → Forest → Prop) : Tree → Prop
  | .node c kids => p c kids ∧ (c.holdsRawText = false → Forest.OutsideRaw p kids)

/-- Every node of trees in a row outside raw text has a property. -/
def Forest.OutsideRaw (p : Content → Forest → Prop) : List Tree → Prop
  | [] => True
  | t :: rest => t.OutsideRaw p ∧ Forest.OutsideRaw p rest
end

/-- The tree is a text. -/
def Tree.isText (t : Tree) : Bool := t.content.isText

/-- Of trees in a row no text is empty, and no two neighbours are texts. -/
structure Forest.Tidy (f : Forest) : Prop where
  nonempty : ∀ t ∈ f, t.content ≠ .text ""
  apart : f.IsChain fun t u => ¬(t.isText = true ∧ u.isText = true)

namespace Forest

/-- The empty row is tidy. -/
theorem tidy_nil : Tidy [] := ⟨fun _ h => absurd h List.not_mem_nil, .nil⟩

/-- A row is tidy if its first tree is not an empty text, no two texts stand side by side at its
start, and the rest is tidy. -/
theorem tidy_cons {t : Tree} {f : Forest} :
    Tidy (t :: f) ↔
      t.content ≠ .text "" ∧ (t.isText = true → f.head?.any Tree.isText = false) ∧ Tidy f := by
  constructor
  · intro h
    refine ⟨h.nonempty t List.mem_cons_self, fun ht => ?_,
      fun u hu => h.nonempty u (List.mem_cons_of_mem t hu), h.apart.tail⟩
    rcases f with _ | ⟨u, f⟩
    · rfl
    · have hapart := (List.isChain_cons_cons.1 h.apart).1
      rw [not_and, Bool.not_eq_true] at hapart
      exact hapart ht
  · rintro ⟨hne, hapart, hf⟩
    refine ⟨List.forall_mem_cons.2 ⟨hne, hf.nonempty⟩, ?_⟩
    rcases f with _ | ⟨u, f⟩
    · exact .singleton t
    · refine List.isChain_cons_cons.2 ⟨?_, hf.apart⟩
      rintro ⟨ht, hu⟩
      rw [List.head?_cons, Option.any_some, hu] at hapart
      cases hapart ht

/-- A property of the contents outside raw text holds of a row if it holds of each tree. -/
theorem outsideRaw_iff {p : Content → Forest → Prop} {f : Forest} :
    OutsideRaw p f ↔ ∀ t ∈ f, t.OutsideRaw p := by
  induction f with
  | nil => simp [OutsideRaw]
  | cons t f ih => rw [OutsideRaw, ih, List.forall_mem_cons]

end Forest

section OutsideRaw

variable {p q : Content → Forest → Prop}

mutual
/-- A property outside raw text may be weakened. -/
theorem Tree.OutsideRaw.imp (hpq : ∀ c kids, p c kids → q c kids) {t : Tree}
    (h : t.OutsideRaw p) : t.OutsideRaw q := by
  obtain ⟨c, kids⟩ := t
  exact ⟨hpq c kids h.1, fun hraw => Forest.OutsideRaw.imp hpq (h.2 hraw)⟩

/-- The same for trees in a row. -/
theorem Forest.OutsideRaw.imp (hpq : ∀ c kids, p c kids → q c kids) {f : Forest}
    (h : Forest.OutsideRaw p f) : Forest.OutsideRaw q f := by
  match f with
  | [] => trivial
  | t :: rest => exact ⟨Tree.OutsideRaw.imp hpq h.1, Forest.OutsideRaw.imp hpq h.2⟩
end

mutual
/-- Two properties that hold outside raw text hold there together. -/
theorem Tree.OutsideRaw.and {t : Tree} (hp : t.OutsideRaw p) (hq : t.OutsideRaw q) :
    t.OutsideRaw fun c kids => p c kids ∧ q c kids := by
  obtain ⟨c, kids⟩ := t
  exact ⟨⟨hp.1, hq.1⟩, fun hraw => Forest.OutsideRaw.and (hp.2 hraw) (hq.2 hraw)⟩

/-- The same for trees in a row. -/
theorem Forest.OutsideRaw.and {f : Forest} (hp : Forest.OutsideRaw p f)
    (hq : Forest.OutsideRaw q f) : Forest.OutsideRaw (fun c kids => p c kids ∧ q c kids) f := by
  match f with
  | [] => trivial
  | t :: rest => exact ⟨Tree.OutsideRaw.and hp.1 hq.1, Forest.OutsideRaw.and hp.2 hq.2⟩
end

end OutsideRaw

/-! ### Deciding the shape of a tree -/

-- With `∀ c ∈ s` the instance that runs through all characters would be found.
instance (e : Element) : Decidable e.Formed :=
  decidable_of_iff
    (e.name.toList.head?.any Char.isAlpha = true ∧ e.name.toList.all (!OpenTag.isGap ·) = true ∧
      e.attrs.all (fun a => !a.name.toList.isEmpty && a.name.toList.all OpenTag.isNameChar) = true)
    ⟨fun ⟨hletter, hname, hattrs⟩ => ⟨hletter, by simpa using hname, by simpa using hattrs⟩,
      fun ⟨hletter, hname, hattrs⟩ => ⟨hletter, by simpa using hname, by simpa using hattrs⟩⟩

instance (e : Element) : Decidable e.Clean :=
  decidable_of_iff
    (e.name.toList.all isUnquoting = true ∧
      e.attrs.all (fun a => a.name.toList.all isUnquoting) = true)
    ⟨fun ⟨hname, hattrs⟩ => ⟨by simpa using hname, by simpa using hattrs⟩,
      fun ⟨hname, hattrs⟩ => ⟨by simpa using hname, by simpa using hattrs⟩⟩

instance (e : Element) : Decidable e.OpensWell := inferInstanceAs (Decidable (_ = _))

instance : (c : Content) → (kids : Forest) → Decidable (c.Formed kids)
  | .fragment, _ => inferInstanceAs (Decidable False)
  | .text _, kids => inferInstanceAs (Decidable (kids = []))
  | .comment _, kids => inferInstanceAs (Decidable (kids = [] ∧ _ = _))
  | .doctype _, kids => inferInstanceAs (Decidable (kids = [] ∧ _ = _))
  | .element e, kids => inferInstanceAs (Decidable (e.Formed ∧ (_ = _ → kids = [])))

instance : (c : Content) → (kids : Forest) → Decidable (c.Clean kids)
  | .text s, _ => inferInstanceAs (Decidable ('<' ∉ s.toList))
  | .element e, _ => inferInstanceAs (Decidable (e.Clean ∧ (_ = _ → _ = _)))
  | .fragment, _ | .comment _, _ | .doctype _, _ => inferInstanceAs (Decidable True)

instance : (c : Content) → (kids : Forest) → Decidable (c.Settled kids)
  | .text _, _ => inferInstanceAs (Decidable (_ = _))
  | .element e, _ =>
    inferInstanceAs (Decidable (e.OpensWell ∧ (_ = _ → '>' ∉ e.name.toList) ∧ (_ = _ → _ = _)))
  | .fragment, _ | .comment _, _ | .doctype _, _ => inferInstanceAs (Decidable True)

instance (f : Forest) : Decidable f.Tidy :=
  decidable_of_iff
    ((∀ t ∈ f, t.content ≠ .text "") ∧ f.IsChain fun t u => ¬(t.isText = true ∧ u.isText = true))
    ⟨fun ⟨hne, hapart⟩ => ⟨hne, hapart⟩, fun ⟨hne, hapart⟩ => ⟨hne, hapart⟩⟩

section OutsideRaw

variable (p : Content → Forest → Prop) [∀ c kids, Decidable (p c kids)]

mutual
/-- A property of every node of a tree outside raw text is decided node by node. -/
def Tree.decideOutsideRaw : (t : Tree) → Decidable (t.OutsideRaw p)
  | .node c kids =>
    have := Forest.decideOutsideRaw kids
    inferInstanceAs (Decidable (p c kids ∧ (c.holdsRawText = false → Forest.OutsideRaw p kids)))

/-- A property of every node of trees in a row outside raw text is decided node by node. -/
def Forest.decideOutsideRaw : (f : List Tree) → Decidable (Forest.OutsideRaw p f)
  | [] => inferInstanceAs (Decidable True)
  | t :: rest =>
    have := Tree.decideOutsideRaw t
    have := Forest.decideOutsideRaw rest
    inferInstanceAs (Decidable (t.OutsideRaw p ∧ Forest.OutsideRaw p rest))
end

instance (f : Forest) : Decidable (Forest.OutsideRaw p f) := Forest.decideOutsideRaw p f

end OutsideRaw

/-! ### Changes that reading makes -/

/-- The element without the marks of bound attributes. -/
def Element.cleared (e : Element) : Element :=
  { e with attrs := e.attrs.map fun a => { a with encoded := false } }

/-- The content without the marks of bound attributes. -/
def Content.cleared : Content → Content
  | .element e => .element e.cleared
  | c => c

mutual
/-- The tree without the marks of bound attributes. -/
def Tree.cleared : Tree → Tree
  | .node c kids => .node c.cleared (Forest.cleared kids)

/-- The trees without the marks of bound attributes. -/
def Forest.cleared : List Tree → Forest
  | [] => []
  | t :: rest => t.cleared :: Forest.cleared rest
end

/-- The body of raw text that characters are: nothing, or one text. -/
def Forest.ofRawText (s : List Char) : Forest :=
  if s.isEmpty then [] else [.ofText (String.ofList s)]

mutual
/-- The tree as it is read back: raw text is read as characters. -/
def Tree.reread : Tree → Tree
  | .node c kids =>
    .node c.cleared
      (if c.holdsRawText then Forest.ofRawText (Forest.write kids) else Forest.reread kids)

/-- The trees as they are read back. -/
def Forest.reread : List Tree → Forest
  | [] => []
  | t :: rest => t.reread :: Forest.reread rest
end

/-- Puts a tree before a row: a text that is empty goes, one before another text is joined to it. -/
def Forest.join : Tree → Forest → Forest
  | .node (.text s) kids, rest =>
    if s = "" then rest
    else
      match rest with
      | .node (.text s') _ :: rest => .node (.text (s ++ s')) kids :: rest
      | _ => .node (.text s) kids :: rest
  | t, rest => t :: rest

mutual
/-- The tree with neighbouring texts joined and empty ones left out. -/
def Tree.tidied : Tree → Tree
  | .node c kids => .node c (Forest.tidied kids)

/-- The trees with neighbouring texts joined and empty ones left out. -/
def Forest.tidied : List Tree → Forest
  | [] => []
  | t :: rest => Forest.join t.tidied (Forest.tidied rest)
end

end Markup
end HtmlCompose
