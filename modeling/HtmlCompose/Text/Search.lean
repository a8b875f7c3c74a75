/-
# Finding, cutting and comparing text

Cuts at the first occurrence of a pattern, replacement of every occurrence from
the left, lengths in UTF-8 bytes, and the comparison of names that ignores ASCII
case (letters outside ASCII are told apart by case).
-/

namespace HtmlCompose
namespace Text

/-- What follows the pattern when the text starts with it. -/
def after? : List Char → List Char → Option (List Char)
  | [], s => some s
  | _ :: _, [] => none
  | p :: ps, c :: cs => if p = c then after? ps cs else none

/-- A text starts with a pattern if it is the pattern and what follows it. -/
theorem after?_eq_some_iff {p s r : List Char} : after? p s = some r ↔ s = p ++ r := by
  induction p generalizing s with
  | nil => simp [after?, eq_comm]
  | cons a p ih =>
    cases s with
    | nil => simp [after?]
    | cons c s => by_cases h : a = c <;> simp [after?, h, ih, eq_comm]

/-- What stands before and after the first occurrence of a pattern. -/
def cutAt (pattern : List Char) : List Char → Option (List Char × List Char)
  | [] => if pattern.isEmpty then some ([], []) else none
  | c :: cs =>
    match after? pattern (c :: cs) with
    | some rest => some ([], rest)
    | none => (cutAt pattern cs).map fun (before, rest) => (c :: before, rest)

/-- The two parts and the pattern between them are the text. -/
theorem cutAt_eq_some {p s a b : List Char} (h : cutAt p s = some (a, b)) :
    s = a ++ p ++ b := by
  induction s generalizing a b with
  | nil =>
    unfold cutAt at h
    split at h
    · rename_i hp; simp_all
    · simp at h
  | cons c s ih =>
    unfold cutAt at h
    split at h
    · rename_i rest hr
      simp only [Option.some.injEq, Prod.mk.injEq] at h
      obtain ⟨rfl, rfl⟩ := h
      simpa using after?_eq_some_iff.1 hr
    · simp only [Option.map_eq_some_iff, Prod.mk.injEq, Prod.exists] at h
      obtain ⟨a', b', hab, rfl, rfl⟩ := h
      simp [ih hab]

/-- A pattern occurs in the text. -/
def occurs (pattern s : List Char) : Bool :=
  (cutAt pattern s).isSome

/-- Replaces every occurrence of `a` directly followed by `b`, where `a ≠ b`, by the given text. -/
def replacePair (a b : Char) (by_ : List Char) : List Char → List Char
  | [] => []
  | [c] => [c]
  | c :: d :: rest =>
    if c = a ∧ d = b then by_ ++ replacePair a b by_ rest
    else c :: replacePair a b by_ (d :: rest)

/-- The number of bytes of a text in UTF-8. -/
def byteLength : List Char → Nat
  | [] => 0
  | c :: s => c.utf8Size + byteLength s

@[simp] theorem byteLength_nil : byteLength [] = 0 := rfl

@[simp] theorem byteLength_cons (c : Char) (s : List Char) :
    byteLength (c :: s) = c.utf8Size + byteLength s := rfl

@[simp] theorem byteLength_append (s t : List Char) :
    byteLength (s ++ t) = byteLength s + byteLength t := by
  induction s with
  | nil => simp
  | cons c s ih => simp [ih, Nat.add_assoc]

/-- ASCII letters in lower case, everything else as it is. -/
def foldCase (s : List Char) : List Char :=
  s.map Char.toLower

/-- Only capital letters have another lower case. -/
theorem eq_of_toLower_eq {c d : Char} (hd : d.isLower = false) (h : c.toLower = d) : c = d := by
  unfold Char.toLower at h
  split at h
  · next hupper =>
    subst h
    delta Char.isLower at hd
    simp only [ge_iff_le, UInt32.le_iff_toNat_le] at hupper
    simp [UInt32.le_iff_toNat_le] at hd hupper
    omega
  · exact h

/-- The text starts with the pattern when its ASCII letters are taken in lower case. -/
def startsFolded : List Char → List Char → Bool
  | [], _ => true
  | _ :: _, [] => false
  | p :: ps, c :: cs => p == c.toLower && startsFolded ps cs

/-- ASCII letters and digits of a numeral system, with their values. -/
def digitValue (c : Char) : Option Nat :=
  if '0' ≤ c ∧ c ≤ '9' then some (c.toNat - '0'.toNat)
  else if 'a' ≤ c ∧ c ≤ 'z' then some (c.toNat - 'a'.toNat + 10)
  else if 'A' ≤ c ∧ c ≤ 'Z' then some (c.toNat - 'A'.toNat + 10)
  else none

/-- The digit of a value below the base. -/
def digitOf (base : Nat) (c : Char) : Option Nat :=
  (digitValue c).filter (· < base)

/-- A non-empty run of digits read as a number. -/
def readNat (base : Nat) (s : List Char) : Option Nat :=
  if s.isEmpty then none
  else s.foldlM (fun n c => (digitOf base c).map (n * base + ·)) 0

/-- A run of digits with an optional plus sign, kept when it is below the bound. -/
def readCount (base bound : Nat) (s : List Char) : Option Nat :=
  (readNat base (match s with | '+' :: rest => rest | _ => s)).filter (· < bound)

end Text

/-- Two names are equal when ASCII case is ignored. -/
def sameName (a b : String) : Bool :=
  Text.foldCase a.toList == Text.foldCase b.toList

/-- The pieces of a text between the occurrences of a character. -/
def segments (separator : Char) (s : String) : List String :=
  (s.toList.splitOn separator).map String.ofList

end HtmlCompose
