/-
# Tokens of markup

A source is cut into lexemes from the left, each the longest one that starts there:

| lexeme | form | token |
| --- | --- | --- |
| comment | `<!--` … `-->` | the body |
| declaration | `<!`, a character other than `-`, anything up to `>` | the whole |
| closing tag | `</`, an ASCII letter, anything up to `>` | the trimmed name |
| opening tag | `<`, an ASCII letter, anything up to a `>` outside quotes | the whole |
| text | anything up to `<` | the whole |

What starts like a declaration or a tag and never ends is one lexeme without a
token, up to the end of the source. Any other `<` that starts nothing is a lexeme
without a token of its own, and so is `<!--` without an end.

Lexemes are never empty and together are the source (`next?_eq_some`).
-/
import HtmlCompose.Text.Blank
import HtmlCompose.Text.Search

namespace HtmlCompose
namespace Markup

/-- A piece of markup with a meaning of its own. -/
inductive Token where
  /-- the body of a comment -/
  | comment (body : String)
  /-- a whole declaration -/
  | doctype (text : String)
  /-- the name of a closing tag -/
  | closeTag (name : String)
  /-- a whole opening tag -/
  | openTag (raw : String)
  | text (s : String)
deriving DecidableEq, Repr

/-- A piece of the source with its token, if it is one. -/
structure Lexeme where
  /-- the characters of the source -/
  text : List Char
  token : Option Token
deriving DecidableEq, Repr

namespace Lexeme

/-- What an opening tag is made of up to the `>` outside quotes, with that `>`; and the rest.
The first argument is the quote that is open. -/
def tagBody : Option Char → List Char → Option (List Char × List Char)
  | _, [] => none
  | none, c :: cs =>
    if c = '>' then some ([c], cs)
    else if c = '"' ∨ c = '\'' then (tagBody (some c) cs).map fun (a, b) => (c :: a, b)
    else (tagBody none cs).map fun (a, b) => (c :: a, b)
  | some q, c :: cs =>
    (tagBody (if c = q then none else some q) cs).map fun (a, b) => (c :: a, b)

/-- The lexeme that a source other than the empty one starts with, and the rest. -/
def next? : List Char → Option (Lexeme × List Char)
  | [] => none
  | '<' :: '!' :: '-' :: '-' :: rest =>
    match Text.cutAt ['-', '-', '>'] rest with
    | some (body, after) =>
      some (⟨['<', '!', '-', '-'] ++ body ++ ['-', '-', '>'],
        some (.comment (String.ofList body))⟩, after)
    | none => some (⟨['<', '!', '-', '-'], none⟩, rest)
  | '<' :: '!' :: c :: rest =>
    if c = '-' then some (⟨['<'], none⟩, '!' :: c :: rest)
    else
      match Text.cutAt ['>'] rest with
      | some (body, after) =>
        let text := ['<', '!', c] ++ body ++ ['>']
        some (⟨text, some (.doctype (String.ofList text))⟩, after)
      | none => some (⟨'<' :: '!' :: c :: rest, none⟩, [])
  | '<' :: '/' :: c :: rest =>
    if c.isAlpha then
      match Text.cutAt ['>'] rest with
      | some (body, after) =>
        some (⟨['<', '/', c] ++ body ++ ['>'],
          some (.closeTag (String.ofList (Text.trim (c :: body))))⟩, after)
      | none => some (⟨'<' :: '/' :: c :: rest, none⟩, [])
    else some (⟨['<'], none⟩, '/' :: c :: rest)
  | '<' :: c :: rest =>
    if c.isAlpha then
      match tagBody none rest with
      | some (body, after) =>
        let text := ['<', c] ++ body
        some (⟨text, some (.openTag (String.ofList text))⟩, after)
      | none => some (⟨'<' :: c :: rest, none⟩, [])
    else some (⟨['<'], none⟩, c :: rest)
  | '<' :: [] => some (⟨['<'], none⟩, [])
  | c :: cs =>
    let text := c :: cs.takeWhile (· != '<')
    some (⟨text, some (.text (String.ofList text))⟩, cs.dropWhile (· != '<'))

/-- The body of a tag and what is left of the text are the text. -/
theorem tagBody_eq_some {q : Option Char} {s a b : List Char} (h : tagBody q s = some (a, b)) :
    s = a ++ b := by
  induction s generalizing q a b with
  | nil => cases q <;> simp [tagBody] at h
  | cons c s ih =>
    cases q with
    | none =>
      unfold tagBody at h
      split at h
      · simp only [Option.some.injEq, Prod.mk.injEq] at h
        obtain ⟨rfl, rfl⟩ := h
        simp
      · split at h <;>
        · simp only [Option.map_eq_some_iff, Prod.mk.injEq, Prod.exists] at h
          obtain ⟨a', b', hab, rfl, rfl⟩ := h
          simp [ih hab]
    | some q =>
      simp only [tagBody, Option.map_eq_some_iff, Prod.mk.injEq, Prod.exists] at h
      obtain ⟨a', b', hab, rfl, rfl⟩ := h
      simp [ih hab]

/-- A lexeme is a non-empty piece at the start of the source, and the rest follows it. -/
theorem next?_eq_some {s rest : List Char} {l : Lexeme} (h : next? s = some (l, rest)) :
    s = l.text ++ rest ∧ l.text ≠ [] := by
  unfold next? at h
  split at h
  · simp at h
  · split at h
    · rename_i hc
      simp only [Option.some.injEq, Prod.mk.injEq] at h
      obtain ⟨rfl, rfl⟩ := h
      simp [Text.cutAt_eq_some hc]
    · simp only [Option.some.injEq, Prod.mk.injEq] at h
      obtain ⟨rfl, rfl⟩ := h
      simp
  · split at h
    · simp only [Option.some.injEq, Prod.mk.injEq] at h
      obtain ⟨rfl, rfl⟩ := h
      simp
    · split at h
      · rename_i hc
        simp only [Option.some.injEq, Prod.mk.injEq] at h
        obtain ⟨rfl, rfl⟩ := h
        simp [Text.cutAt_eq_some hc]
      · simp only [Option.some.injEq, Prod.mk.injEq] at h
        obtain ⟨rfl, rfl⟩ := h
        simp
  · split at h
    · split at h
      · rename_i hc
        simp only [Option.some.injEq, Prod.mk.injEq] at h
        obtain ⟨rfl, rfl⟩ := h
        simp [Text.cutAt_eq_some hc]
      · simp only [Option.some.injEq, Prod.mk.injEq] at h
        obtain ⟨rfl, rfl⟩ := h
        simp
    · simp only [Option.some.injEq, Prod.mk.injEq] at h
      obtain ⟨rfl, rfl⟩ := h
      simp
  · split at h
    · split at h
      · rename_i hc
        simp only [Option.some.injEq, Prod.mk.injEq] at h
        obtain ⟨rfl, rfl⟩ := h
        simp [tagBody_eq_some hc]
      · simp only [Option.some.injEq, Prod.mk.injEq] at h
        obtain ⟨rfl, rfl⟩ := h
        simp
    · simp only [Option.some.injEq, Prod.mk.injEq] at h
      obtain ⟨rfl, rfl⟩ := h
      simp
  · simp only [Option.some.injEq, Prod.mk.injEq] at h
    obtain ⟨rfl, rfl⟩ := h
    simp
  · simp only [Option.some.injEq, Prod.mk.injEq] at h
    obtain ⟨rfl, rfl⟩ := h
    simp [List.takeWhile_append_dropWhile]

/-- What follows a lexeme is shorter than the source. -/
theorem next?_length {s rest : List Char} {l : Lexeme} (h : next? s = some (l, rest)) :
    rest.length < s.length := by
  obtain ⟨rfl, hl⟩ := next?_eq_some h
  have := List.length_pos_iff.2 hl
  simp only [List.length_append]
  omega

/-- The lexemes of a source. -/
def all (s : List Char) : List Lexeme :=
  match h : next? s with
  | none => []
  | some (l, rest) =>
    have := next?_length h
    l :: all rest
termination_by s.length

/-- The tokens of lexemes with the byte positions where they start and end, the first lexeme
standing at an offset. -/
def positioned : Nat → List Lexeme → List (Token × Nat × Nat)
  | _, [] => []
  | offset, l :: rest =>
    let stop := offset + Text.byteLength l.text
    match l.token with
    | some t => (t, offset, stop) :: positioned stop rest
    | none => positioned stop rest

end Lexeme

/-- The tokens of a source with their byte positions. -/
def tokens (source : String) : List (Token × Nat × Nat) :=
  Lexeme.positioned 0 (Lexeme.all source.toList)

end Markup
end HtmlCompose
