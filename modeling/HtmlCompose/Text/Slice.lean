/-
# Positions in bytes

A position in a text is the number of bytes in UTF-8 that stand before it.  A text can be cut at
its start, at its end and between two characters, and nowhere else: at a position inside of a
character there is neither a text before it nor one behind it.
-/
import HtmlCompose.Text.Search

namespace HtmlCompose
namespace Text

/-- The texts before and behind a position, if the text can be cut there. -/
def splitBytes? : Nat → List Char → Option (List Char × List Char)
  | 0, s => some ([], s)
  | _ + 1, [] => none
  | n + 1, c :: s =>
    if c.utf8Size ≤ n + 1 then (splitBytes? (n + 1 - c.utf8Size) s).map fun (a, b) => (c :: a, b)
    else none

/-- The text between two positions, if it can be cut at both. -/
def slice? (start stop : Nat) (s : List Char) : Option (List Char) :=
  if start ≤ stop then do
    let (_, rest) ← splitBytes? start s
    let (x, _) ← splitBytes? (stop - start) rest
    return x
  else none

/-- The position of the first occurrence of a pattern. -/
def find? (pattern s : List Char) : Option Nat :=
  (cutAt pattern s).map fun (before, _) => byteLength before

variable {s a b : List Char} {n : Nat}

/-- Only the empty text takes no bytes. -/
theorem byteLength_eq_zero : byteLength s = 0 ↔ s = [] := by
  cases s with
  | nil => simp
  | cons c s => simp [Nat.ne_of_gt c.utf8Size_pos]

/-- **A text is cut at a position** if and only if so many bytes stand before the cut. -/
theorem splitBytes?_eq_some_iff :
    splitBytes? n s = some (a, b) ↔ s = a ++ b ∧ byteLength a = n := by
  induction n, s using splitBytes?.induct generalizing a with
  | case1 s =>
    rw [splitBytes?, Option.some.injEq, Prod.mk.injEq, byteLength_eq_zero]
    constructor
    · rintro ⟨rfl, rfl⟩
      exact ⟨rfl, rfl⟩
    · rintro ⟨rfl, rfl⟩
      exact ⟨rfl, rfl⟩
  | case2 n =>
    rw [splitBytes?]
    constructor
    · exact nofun
    · rintro ⟨hs, hn⟩
      rw [(List.append_eq_nil_iff.1 hs.symm).1] at hn
      cases hn
  | case3 n c s hfits ih =>
    rw [splitBytes?, if_pos hfits, Option.map_eq_some_iff]
    constructor
    · rintro ⟨⟨a', b'⟩, hcut, heq⟩
      obtain ⟨rfl, rfl⟩ := Prod.mk.inj heq
      obtain ⟨rfl, hn⟩ := ih.1 hcut
      rw [byteLength_cons, hn]
      exact ⟨rfl, by omega⟩
    · rintro ⟨hs, hn⟩
      rcases a with _ | ⟨d, a⟩
      · cases hn
      · obtain ⟨rfl, rfl⟩ := List.cons.inj hs
        rw [byteLength_cons] at hn
        exact ⟨(a, b), ih.2 ⟨rfl, by omega⟩, rfl⟩
  | case4 n c s hfits =>
    rw [splitBytes?, if_neg hfits]
    constructor
    · exact nofun
    · rintro ⟨hs, hn⟩
      rcases a with _ | ⟨d, a⟩
      · cases hn
      · obtain ⟨rfl, rfl⟩ := List.cons.inj hs
        rw [byteLength_cons] at hn
        omega

/-- A text is cut where its first part ends. -/
theorem splitBytes?_append (a b : List Char) :
    splitBytes? (byteLength a) (a ++ b) = some (a, b) :=
  splitBytes?_eq_some_iff.2 ⟨rfl, rfl⟩

/-- Two cuts of a text at one position are the same. -/
theorem append_inj_of_byteLength {a' b' : List Char} (h : a ++ b = a' ++ b')
    (hlength : byteLength a = byteLength a') : a = a' ∧ b = b' := by
  have hcut := splitBytes?_append a b
  rw [h, hlength, splitBytes?_append] at hcut
  exact (Prod.mk.inj (Option.some.inj hcut)).imp Eq.symm Eq.symm

/-- The character behind a position is in the text that the position is in. -/
theorem mem_of_byteLength {x d e : List Char} {c : Char} (h : a ++ (x ++ b) = d ++ c :: e)
    (hstart : byteLength a ≤ byteLength d) (hstop : byteLength d < byteLength a + byteLength x) :
    c ∈ x ∧ byteLength d + c.utf8Size ≤ byteLength a + byteLength x := by
  obtain ⟨y, rfl, hrest⟩ : ∃ y, d = a ++ y ∧ x ++ b = y ++ c :: e := by
    rcases List.append_eq_append_iff.1 h with hd | ⟨y, rfl, hrest⟩
    · exact hd
    · rw [byteLength_append] at hstart
      obtain rfl : y = [] := byteLength_eq_zero.1 (by omega)
      exact ⟨[], by simp, hrest.symm⟩
  rw [byteLength_append] at hstop
  rcases List.append_eq_append_iff.1 hrest with ⟨z, rfl, -⟩ | ⟨z, rfl, hz⟩
  · rw [byteLength_append] at hstop
    omega
  · rcases z with _ | ⟨c', z⟩
    · rw [List.append_nil] at hstop
      omega
    · obtain ⟨rfl, -⟩ := List.cons.inj hz
      simp only [byteLength_append, byteLength_cons]
      exact ⟨by simp, by omega⟩

/-- The text between two others is the slice between their positions. -/
theorem slice?_append (a x b : List Char) :
    slice? (byteLength a) (byteLength a + byteLength x) (a ++ (x ++ b)) = some x := by
  rw [slice?, if_pos (Nat.le_add_right ..), splitBytes?_append, Nat.add_sub_cancel_left]
  simp only [Option.bind_eq_bind, Option.bind_some, splitBytes?_append]
  rfl

end Text
end HtmlCompose
