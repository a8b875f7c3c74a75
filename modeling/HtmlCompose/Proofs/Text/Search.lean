/-
# Cuts, pieces and edges of a text

What stands before the first occurrence of a pattern holds no occurrence of it
(`occurs_of_cutAt`), and no piece of a text holds the character that it has been cut at
(`not_mem_of_mem_splitOn`).  A text is trimmed if and only if neither its first nor its last
character is blank (`trim_eq_self_iff`).
-/
import Mathlib.Data.List.DropRight
import HtmlCompose.Text.Blank
import HtmlCompose.Text.Search

namespace HtmlCompose
namespace Text

variable {p s a b : List Char}

/-! ### Cuts -/

/-- A pattern occurs at the start of a text or behind its first character. -/
theorem occurs_cons (p : List Char) (c : Char) (s : List Char) :
    occurs p (c :: s) = ((after? p (c :: s)).isSome || occurs p s) := by
  rw [occurs, cutAt, occurs]
  cases after? p (c :: s) <;> simp

/-- An occurrence is a stretch of the text. -/
theorem occurs_eq_false_iff : occurs p s = false ↔ ¬p <:+: s := by
  induction s with
  | nil => simp [occurs, cutAt]
  | cons c s ih =>
    have hprefix : (after? p (c :: s)).isSome = false ↔ ¬p <+: c :: s := by
      rw [Option.isSome_eq_false_iff, Option.isNone_iff_eq_none, Option.eq_none_iff_forall_ne_some,
        List.IsPrefix, not_exists]
      exact forall_congr' fun x => not_congr (after?_eq_some_iff.trans eq_comm)
    rw [occurs_cons, Bool.or_eq_false_iff, ih, hprefix, List.infix_cons_iff, not_or]

/-- A pattern at which a text cannot be cut does not occur. -/
theorem occurs_of_cutAt_eq_none (h : cutAt p s = none) : occurs p s = false := by
  rw [occurs, h]
  rfl

/-- What stands before the first occurrence holds none. -/
theorem occurs_of_cutAt (hp : p ≠ []) (h : cutAt p s = some (a, b)) : occurs p a = false := by
  induction s generalizing a b with
  | nil =>
    unfold cutAt at h
    rw [if_neg (by simpa using hp)] at h
    cases h
  | cons c s ih =>
    unfold cutAt at h
    split at h
    · obtain ⟨rfl, rfl⟩ := Prod.mk.inj (Option.some.inj h)
      simpa [occurs, cutAt] using hp
    · rename_i hnone
      simp only [Option.map_eq_some_iff, Prod.mk.injEq, Prod.exists] at h
      obtain ⟨a', b', hcut, rfl, rfl⟩ := h
      rw [occurs_cons, ih hcut, Bool.or_false]
      rw [Option.isSome_eq_false_iff, Option.isNone_iff_eq_none, Option.eq_none_iff_forall_ne_some]
      intro x hx
      have hs : c :: s = p ++ (x ++ p ++ b') := by
        rw [cutAt_eq_some hcut, ← List.append_assoc, ← List.append_assoc,
          ← after?_eq_some_iff.1 hx]
        simp
      rw [after?_eq_some_iff.2 hs] at hnone
      cases hnone

/-- A text is cut at the first occurrence of a character. -/
theorem cutAt_singleton {c : Char} (h : c ∉ s) (r : List Char) :
    cutAt [c] (s ++ c :: r) = some (s, r) := by
  induction s with
  | nil => simp [cutAt, after?]
  | cons d s ih =>
    rw [List.mem_cons, not_or] at h
    rw [List.cons_append, cutAt, after?, if_neg h.1, ih h.2]
    rfl

/-- A single character occurs in a text if it is in it. -/
theorem occurs_singleton {c : Char} : occurs [c] s = false ↔ c ∉ s := by
  induction s with
  | nil => simp [occurs, cutAt]
  | cons d s ih =>
    rw [occurs_cons, Bool.or_eq_false_iff, ih, List.mem_cons, not_or, after?]
    by_cases hcd : c = d <;> simp [hcd, after?]

/-! ### Pieces -/

/-- No piece of a text holds the character that the text is cut at. -/
theorem not_mem_of_mem_splitOn {c : Char} {piece : List Char} (h : piece ∈ s.splitOn c) :
    c ∉ piece := by
  induction s generalizing piece with
  | nil =>
    obtain rfl := List.mem_singleton.1 (List.splitOn_nil c ▸ h)
    exact List.not_mem_nil
  | cons d s ih =>
    rw [List.splitOn_eq_splitOnP, List.splitOnP_cons_eq_if_modifyHead] at h
    split_ifs at h with hd
    · rcases List.mem_cons.1 h with rfl | h
      · exact List.not_mem_nil
      · exact ih h
    · obtain ⟨first, rest, hsplit⟩ :=
        List.exists_cons_of_ne_nil (List.splitOnP_ne_nil (· == c) s)
      rw [hsplit, List.modifyHead_cons] at h
      rw [List.splitOn_eq_splitOnP, hsplit] at ih
      rcases List.mem_cons.1 h with rfl | h
      · rw [List.mem_cons, not_or]
        exact ⟨fun heq => hd (beq_iff_eq.2 heq.symm), ih List.mem_cons_self⟩
      · exact ih (List.mem_cons_of_mem _ h)

/-- Pieces with a separator and a space between them are pieces with the separator between them, all
but the first of which start with a space. -/
theorem intercalate_space (separator : Char) (piece : List Char) (pieces : List (List Char)) :
    [separator, ' '].intercalate (piece :: pieces) =
      [separator].intercalate (piece :: pieces.map (' ' :: ·)) := by
  induction pieces generalizing piece with
  | nil => rfl
  | cons next pieces ih =>
    rw [List.intercalate_cons_cons, ih, List.map_cons, List.intercalate_cons_cons]
    rcases pieces with _ | ⟨last, pieces⟩
    · simp
    · simp [List.intercalate_cons_cons]

/-! ### Edges -/

/-- Nothing is dropped from a text whose first character may stay. -/
theorem dropWhile_eq_self_iff {p : Char → Bool} :
    s.dropWhile p = s ↔ ∀ c ∈ s.head?, p c = false := by
  rw [List.dropWhile_eq_self_iff]
  rcases s with _ | ⟨c, s⟩ <;> simp

/-- Nothing is trimmed from a text whose last character may stay. -/
theorem trimEnd_eq_self_iff {p : Char → Bool} :
    trimEnd p s = s ↔ ∀ c ∈ s.getLast?, p c = false := by
  rw [trimEnd, ← List.head?_reverse, ← dropWhile_eq_self_iff, List.reverse_eq_iff]

/-- **A text is trimmed** if and only if it has no blanks at its ends. -/
theorem trim_eq_self_iff : trim s = s ↔
    (∀ c ∈ s.head?, isBlank c = false) ∧ ∀ c ∈ s.getLast?, isBlank c = false := by
  rw [← dropWhile_eq_self_iff, ← trimEnd_eq_self_iff]
  constructor
  · intro h
    have hstart : s.dropWhile isBlank = s := by
      refine (List.dropWhile_suffix isBlank).eq_of_length_le ?_
      have hle := (List.rdropWhile_prefix isBlank (s.dropWhile isBlank)).length_le
      exact (congrArg List.length h).symm.le.trans hle
    refine ⟨hstart, ?_⟩
    rw [trim, trimStart, hstart] at h
    exact h
  · rintro ⟨hstart, hend⟩
    rw [trim, trimStart, hstart, hend]

/-- A text without blanks has none to trim. -/
theorem trim_eq_self (h : ∀ c ∈ s, isBlank c = false) : trim s = s :=
  trim_eq_self_iff.2 ⟨fun c hc => h c (List.mem_of_mem_head? hc),
    fun c hc => h c (List.mem_of_getLast? hc)⟩

/-- Trimming takes characters away and moves none. -/
theorem trim_sublist (s : List Char) : (trim s).Sublist s :=
  (List.rdropWhile_prefix isBlank _).sublist.trans (List.dropWhile_sublist isBlank)

/-- What has been trimmed is trimmed. -/
theorem trim_trim (s : List Char) : trim (trim s) = trim s := by
  have hend : trimEnd isBlank (trim s) = trim s := List.rdropWhile_idempotent isBlank _
  refine trim_eq_self_iff.2 ⟨fun c hc => ?_, trimEnd_eq_self_iff.1 hend⟩
  -- the first character is the first one that is not blank
  have hprefix : trim s <+: s.dropWhile isBlank := List.rdropWhile_prefix isBlank _
  obtain ⟨rest, hrest⟩ := hprefix
  have hfirst := List.head?_dropWhile_not isBlank s
  rw [← hrest, List.head?_append, Option.mem_def.1 hc] at hfirst
  exact hfirst

/-- A blank in front is trimmed. -/
theorem trim_cons_space (s : List Char) : trim (' ' :: s) = trim s := by
  rw [trim, trimStart, List.dropWhile_cons_of_pos (by decide)]
  rfl

end Text
end HtmlCompose
