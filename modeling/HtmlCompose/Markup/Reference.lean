/-
# Character references

In attribute values `&name;` and `&#digits;` stand for a character when the name is
known (`amp`, `quot`, `apos`, `lt`, `gt`, `nbsp`) or the digits, decimal or
hexadecimal after `x`, are those of a character, and when the reference takes at
most eleven bytes. Everything else is kept as written.
-/
import HtmlCompose.Text.Search

namespace HtmlCompose
namespace Markup
namespace Reference

/-- The character of a code point, surrogates excluded. -/
def ofCodePoint (n : Nat) : Option Char :=
  if n.isValidChar then some (Char.ofNat n) else none

/-- The code point that the text after `&#` denotes. -/
def codePoint? : List Char → Option Nat
  | 'x' :: digits | 'X' :: digits => Text.readCount 16 UInt32.size digits
  | digits => Text.readCount 10 UInt32.size digits

/-- The character that the text between `&` and `;` denotes. -/
def char? : List Char → Option Char
  | ['a', 'm', 'p'] => some '&'
  | ['q', 'u', 'o', 't'] => some '"'
  | ['a', 'p', 'o', 's'] => some '\''
  | ['l', 't'] => some '<'
  | ['g', 't'] => some '>'
  | ['n', 'b', 's', 'p'] => some '\xa0'
  | '#' :: digits => (codePoint? digits).bind ofCodePoint
  | _ => none

/-- The bytes that may stand between `&` and `;`. -/
def maxBytes : Nat := 9

/-- The character of the reference that a text after `&` starts with, and the rest. -/
def start? (s : List Char) : Option (Char × List Char) :=
  match Text.cutAt [';'] s with
  | some (name, rest) =>
    if Text.byteLength name ≤ maxBytes then (char? name).map fun c => (c, rest) else none
  | none => none

/-- What is left behind the start of a reference is shorter than the text. -/
theorem start?_length {s rest : List Char} {c : Char} (h : start? s = some (c, rest)) :
    rest.length < s.length := by
  unfold start? at h
  split at h
  · rename_i hc
    split at h
    · simp only [Option.map_eq_some_iff, Prod.mk.injEq] at h
      obtain ⟨_, _, _, rfl⟩ := h
      have := congrArg List.length (Text.cutAt_eq_some hc)
      simp only [List.length_append, List.length_cons, List.length_nil] at this
      omega
    · simp at h
  · simp at h

/-- The text with its references replaced by their characters. -/
def decode : List Char → List Char
  | [] => []
  | c :: cs =>
    if c = '&' then
      match h : start? cs with
      | some (d, rest) =>
        have := start?_length h
        d :: decode rest
      | none => c :: decode cs
    else c :: decode cs
termination_by s => s.length

end Reference
end Markup
end HtmlCompose
