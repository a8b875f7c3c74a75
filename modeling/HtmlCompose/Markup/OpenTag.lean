/-
# The parts of an opening tag

The text between `<` and `>` is a name, up to a blank or `/`, and attributes apart
by blanks and `/`. An attribute is a name, up to a blank, `=` or `/`, and after `=`
a value: in quotes up to the same quote, else up to a blank. A tag that ends in `/`
closes itself, and that `/` belongs to no value without quotes. Attributes with an
empty name are left out; character references in values are decoded.
-/
import HtmlCompose.Text.Blank
import HtmlCompose.Markup.Reference

namespace HtmlCompose
namespace Markup

/-- An opening tag in parts. -/
structure OpenTag where
  name : String
  attrs : List (String × String)
  selfClosing : Bool
deriving DecidableEq, Repr

namespace OpenTag

/-- What stands between the angle brackets; a text without a final `>` stands for itself. -/
def inner (raw : List Char) : List Char :=
  let body := match raw with | '<' :: rest => rest | _ => raw
  if body.getLast? = some '>' then body.dropLast else raw

/-- Characters between attributes. -/
def isGap (c : Char) : Bool := Text.isBlank c || c == '/'

/-- Characters of an attribute name. -/
def isNameChar (c : Char) : Bool := !Text.isBlank c && c != '=' && c != '/'

/-- A value after `=` and blanks, and the rest. -/
def value (selfClosing : Bool) (s : List Char) : List Char × List Char :=
  match s with
  | '"' :: rest => (rest.takeWhile (· != '"'), (rest.dropWhile (· != '"')).drop 1)
  | '\'' :: rest => (rest.takeWhile (· != '\''), (rest.dropWhile (· != '\'')).drop 1)
  | _ =>
    let word := s.takeWhile (fun c => !Text.isBlank c)
    let rest := s.dropWhile (fun c => !Text.isBlank c)
    if selfClosing && rest.isEmpty && word.getLast? == some '/' then (word.dropLast, rest)
    else (word, rest)

/-- What stands behind a value is no longer than what it is read from. -/
theorem value_length (selfClosing : Bool) (s : List Char) :
    (value selfClosing s).2.length ≤ s.length := by
  unfold value
  split
  · rename_i rest
    have := (List.dropWhile_sublist (l := rest) (· != '"')).length_le
    simp only [List.length_drop, List.length_cons]
    omega
  · rename_i rest
    have := (List.dropWhile_sublist (l := rest) (· != '\'')).length_le
    simp only [List.length_drop, List.length_cons]
    omega
  · have := (List.dropWhile_sublist (l := s) (fun c => !Text.isBlank c)).length_le
    dsimp only
    split <;> exact this

/-- What follows an attribute name: the value, if there is one, and the rest. -/
def valueAfter (selfClosing : Bool) (s : List Char) : List Char × List Char :=
  match s with
  | '=' :: rest => value selfClosing (Text.trimStart Text.isBlank rest)
  | _ => ([], s)

/-- What stands behind a name and its value is no longer than what stands behind the name. -/
theorem valueAfter_length_le (selfClosing : Bool) (s : List Char) :
    (valueAfter selfClosing s).2.length ≤ s.length := by
  unfold valueAfter
  split
  · rename_i rest
    have h1 := value_length selfClosing (Text.trimStart Text.isBlank rest)
    have h2 := (List.dropWhile_sublist (l := rest) Text.isBlank).length_le
    unfold Text.trimStart at h1 ⊢
    simp only [List.length_cons]
    omega
  · exact Nat.le_refl _

/-- The attribute that a text without a gap at its start begins with, and the rest. -/
def nextAttr (selfClosing : Bool) (s : List Char) : (List Char × List Char) × List Char :=
  let name := s.takeWhile isNameChar
  let (v, rest) := valueAfter selfClosing (Text.trimStart Text.isBlank (s.dropWhile isNameChar))
  ((name, v), rest)

/-- What stands behind an attribute is shorter than what it is read from. -/
theorem nextAttr_length (selfClosing : Bool) {c : Char} {s : List Char} (h : isGap c = false) :
    (nextAttr selfClosing (c :: s)).2.length ≤ s.length := by
  unfold nextAttr
  simp only [isGap, Bool.or_eq_false_iff, beq_eq_false_iff_ne] at h
  by_cases hc : c = '='
  · subst hc
    have h1 : isNameChar '=' = false := by decide
    have h2 : Text.isBlank '=' = false := by decide
    simp only [List.dropWhile_cons, h1, Bool.false_eq_true, if_false, Text.trimStart, h2, valueAfter]
    have h3 := value_length selfClosing (s.dropWhile Text.isBlank)
    have h4 := (List.dropWhile_sublist (l := s) Text.isBlank).length_le
    omega
  · have h1 : isNameChar c = true := by simp [isNameChar, h, hc]
    simp only [List.dropWhile_cons, h1, if_true, Text.trimStart]
    have h2 := valueAfter_length_le selfClosing ((s.dropWhile isNameChar).dropWhile Text.isBlank)
    have h3 := (List.dropWhile_sublist (l := s.dropWhile isNameChar) Text.isBlank).length_le
    have h4 := (List.dropWhile_sublist (l := s) isNameChar).length_le
    omega

/-- The attributes of a tag, in order. -/
def attributes (selfClosing : Bool) : List Char → List (String × String)
  | [] => []
  | c :: s =>
    if h : isGap c = true then attributes selfClosing s
    else
      have := nextAttr_length selfClosing (s := s) (by simpa using h)
      let found := nextAttr selfClosing (c :: s)
      let rest := attributes selfClosing found.2
      if found.1.1.isEmpty then rest
      else (String.ofList found.1.1, String.ofList (Reference.decode found.1.2)) :: rest
termination_by s => s.length
decreasing_by
  · simp
  · simp only [List.length_cons]; omega

/-- The parts of the text of a tag. -/
def ofRaw (raw : String) : OpenTag :=
  let inside := inner raw.toList
  let selfClosing := inside.getLast? == some '/'
  { name := String.ofList (inside.takeWhile (fun c => !isGap c))
    attrs := attributes selfClosing (inside.dropWhile (fun c => !isGap c))
    selfClosing }

end OpenTag
end Markup
end HtmlCompose
