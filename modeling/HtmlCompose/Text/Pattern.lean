/-
# Patterns and their longest matches

A pattern is a regular expression over characters.  It is matched against the start of a text one
character after the other: what a pattern asks of the text behind a character is a pattern again
(`Pattern.after`), and a match may end where a pattern asks for nothing more (`Pattern.nullable`).
Matching goes on as long as it can, and takes the last such place (`Pattern.longest?`).
-/

namespace HtmlCompose
namespace Text

/-- A regular expression over characters. -/
inductive Pattern where
  /-- matches nothing, not even the empty text -/
  | never
  /-- matches the empty text -/
  | empty
  /-- matches one character of a class -/
  | one (p : Char → Bool)
  | seq (a b : Pattern)
  | alt (a b : Pattern)
  /-- matches any number of matches in a row -/
  | star (a : Pattern)

namespace Pattern

/-- One character. -/
def char (c : Char) : Pattern := one (· == c)

/-- One character other than those given. -/
def noneOf (cs : List Char) : Pattern := one fun c => !cs.contains c

/-- One pattern after the other. -/
def all : List Pattern → Pattern
  | [] => empty
  | p :: ps => seq p (all ps)

/-- The pattern asks for nothing more. -/
def nullable : Pattern → Bool
  | never | one _ => false
  | empty | star _ => true
  | seq a b => a.nullable && b.nullable
  | alt a b => a.nullable || b.nullable

/-- What the pattern asks of the text behind a character. -/
def after (c : Char) : Pattern → Pattern
  | never | empty => never
  | one p => if p c then empty else never
  | seq a b => if a.nullable then alt (seq (a.after c) b) (b.after c) else seq (a.after c) b
  | alt a b => alt (a.after c) (b.after c)
  | star a => seq (a.after c) (star a)

/-- The longest start of a text that the pattern matches, and the rest. -/
def longest? (p : Pattern) : List Char → Option (List Char × List Char)
  | [] => if p.nullable then some ([], []) else none
  | c :: s =>
    match (p.after c).longest? s with
    | some (x, rest) => some (c :: x, rest)
    | none => if p.nullable then some ([], c :: s) else none

/-- The longest of the longest matches of several patterns with names, the first one if there are
more. -/
def longestOf? {α : Type} (s : List Char) : List (α × Pattern) → Option (α × List Char × List Char)
  | [] => none
  | (name, p) :: others =>
    match p.longest? s, longestOf? s others with
    | some (x, rest), some (name', y, rest') =>
      if y.length ≤ x.length then some (name, x, rest) else some (name', y, rest')
    | some (x, rest), none => some (name, x, rest)
    | none, found => found

end Pattern
end Text
end HtmlCompose
