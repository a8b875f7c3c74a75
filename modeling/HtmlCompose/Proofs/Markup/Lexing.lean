/-
# Written pieces are read as lexemes

Each piece that writing puts down is one lexeme, whatever stands behind it: a comment
without an end inside, a declaration, a closing tag, and an opening tag whose last `>`
is the first one outside quotes.  A `<` that starts nothing is a lexeme too.
-/
import HtmlCompose.Proofs.Markup.Shape
import HtmlCompose.Proofs.Text.Search

namespace HtmlCompose
namespace Markup

/-- A text without the end of a comment is cut at the one that follows it. -/
theorem cutAt_commentEnd {body : List Char} (h : Text.occurs commentEnd body = false)
    (r : List Char) : Text.cutAt commentEnd (body ++ commentEnd ++ r) = some (body, r) := by
  rw [List.append_assoc]
  induction body with
  | nil => rfl
  | cons c body ih =>
    rw [Text.occurs_cons, Bool.or_eq_false_iff] at h
    rw [List.cons_append, Text.cutAt, ih h.2]
    -- an occurrence that starts in the body would end in it, as its last character is the only `>`
    have hnone : Text.after? commentEnd (c :: (body ++ (commentEnd ++ r))) = none := by
      rcases body with _ | ⟨d, _ | ⟨e, body⟩⟩
      · simp [Text.after?, commentEnd]
      · simp [Text.after?, commentEnd]
      · simpa [Text.after?, commentEnd] using h.1
    rw [hnone]
    rfl

namespace Lexeme

/-! ### One piece -/

variable {s body rest : List Char} {c : Char}

/-- **A written comment is a lexeme**, whatever follows it. -/
theorem next?_comment (h : Text.occurs commentEnd body = false) (rest : List Char) :
    next? (writeComment (String.ofList body) ++ rest) =
      some (⟨writeComment (String.ofList body), some (.comment (String.ofList body))⟩, rest) := by
  have hcut := cutAt_commentEnd h rest
  rw [commentEnd] at hcut
  simp only [writeComment, String.toList_ofList, List.cons_append, List.nil_append, next?] at *
  rw [hcut]

/-- A `<` and a letter start an opening tag if there is a `>` outside quotes, and otherwise take all
that is left. -/
theorem next?_letter (hc : c.isAlpha = true) (s : List Char) :
    next? ('<' :: c :: s) =
      match tagBody none s with
      | some (body, after) =>
        some (⟨'<' :: c :: body, some (.openTag (String.ofList ('<' :: c :: body)))⟩, after)
      | none => some (⟨'<' :: c :: s, none⟩, []) := by
  have hbang : c ≠ '!' := by
    rintro rfl
    simp at hc
  have hslash : c ≠ '/' := by
    rintro rfl
    simp at hc
  rw [next?, if_pos hc]
  · rfl
  · exact fun _ h => absurd h hbang
  · exact fun _ _ h => absurd h hbang
  · exact fun _ _ h => absurd h hslash

/-- Text goes on to the next `<`. -/
theorem next?_text (hc : c ≠ '<') (s : List Char) :
    next? (c :: s) =
      some (⟨c :: s.takeWhile (· != '<'), some (.text (String.ofList (c :: s.takeWhile (· != '<'))))⟩,
        s.dropWhile (· != '<')) := by
  rw [next?]
  · exact fun _ h => absurd h hc
  · exact fun _ _ h => absurd h hc
  · exact fun _ _ h => absurd h hc
  · exact fun _ _ h => absurd h hc
  · exact fun h => absurd h hc

/-- **A written declaration is a lexeme**, whatever follows it. -/
theorem next?_doctype (h : isDeclaration s = true) (rest : List Char) :
    next? (s ++ rest) = some (⟨s, some (.doctype (String.ofList s))⟩, rest) := by
  unfold isDeclaration at h
  split at h
  · rename_i c body
    simp only [Bool.and_eq_true, bne_iff_ne, beq_iff_eq, Bool.not_eq_true',
      List.contains_eq_mem, decide_eq_false_iff_not] at h
    obtain ⟨⟨hc, hlast⟩, hmem⟩ := h
    have hbody : body = body.dropLast ++ ['>'] := by
      rw [List.dropLast_append_getLast? _ hlast]
    have hcut : Text.cutAt ['>'] (body ++ rest) = some (body.dropLast, rest) := by
      conv_lhs => rw [hbody, List.append_assoc]
      exact Text.cutAt_singleton hmem rest
    rw [List.cons_append, List.cons_append, List.cons_append, next?, if_neg hc, hcut]
    · simp [← hbody]
    · exact fun _ h => absurd h hc
  · cases h

/-- A closing tag ends at its `>` if the name holds none. -/
theorem next?_closeTag {e : Element} (he : e.Formed) (hend : '>' ∉ e.name.toList)
    (rest : List Char) :
    next? (writeCloseTag e ++ rest) =
      some (⟨writeCloseTag e, some (.closeTag e.name)⟩, rest) := by
  obtain ⟨c, name, hname, hc⟩ := he.exists_cons
  have hblank : ∀ d ∈ c :: name, Text.isBlank d = false := by
    intro d hd
    have hgap := he.name d (hname ▸ hd)
    rw [OpenTag.isGap, Bool.or_eq_false_iff] at hgap
    exact hgap.1
  rw [hname, List.mem_cons, not_or] at hend
  have hcut : Text.cutAt ['>'] (name ++ '>' :: rest) = some (name, rest) :=
    Text.cutAt_singleton hend.2 rest
  have hwritten : writeCloseTag e = '<' :: '/' :: c :: (name ++ ['>']) := by
    rw [writeCloseTag, hname]
    rfl
  rw [hwritten, List.cons_append, List.cons_append, List.cons_append, List.append_assoc,
    List.singleton_append, next?, if_pos hc, hcut]
  simp only
  rw [Text.trim_eq_self hblank, ← hname, String.ofList_toList]
  rfl

/-- A `<` before a character that starts nothing is a lexeme by itself. -/
theorem next?_other (hc : c.isAlpha = false) (hbang : c ≠ '!') (hslash : c ≠ '/')
    (s : List Char) : next? ('<' :: c :: s) = some (⟨['<'], none⟩, c :: s) := by
  rw [next?, if_neg (by simp [hc])]
  · exact fun _ h => absurd h hbang
  · exact fun _ _ h => absurd h hbang
  · exact fun _ _ h => absurd h hslash

/-- So is one before `!-`, if it starts no comment. -/
theorem next?_bang_dash (h : s.head? ≠ some '-') :
    next? ('<' :: '!' :: '-' :: s) = some (⟨['<'], none⟩, '!' :: '-' :: s) := by
  rw [next?, if_pos rfl]
  rintro r - rfl
  exact h rfl

/-- So is one before `/`, if it starts no closing tag. -/
theorem next?_slash (h : s.head?.any Char.isAlpha = false) :
    next? ('<' :: '/' :: s) = some (⟨['<'], none⟩, '/' :: s) := by
  rcases s with _ | ⟨c, s⟩
  · rfl
  · rw [next?, if_neg (by simpa using h)]

/-- A `<` that starts nothing is a lexeme, whether a `<` or nothing comes after its text. -/
theorem next?_stray (h : isStray s = true) (hrest : rest.head?.all (· == '<') = true) :
    next? ('<' :: (s ++ rest)) = some (⟨['<'], none⟩, s ++ rest) := by
  unfold isStray at h
  split at h
  · cases h
  · rename_i body hbody
    refine next?_bang_dash ?_
    rcases body with _ | ⟨d, body⟩
    · rcases rest with _ | ⟨d, rest⟩ <;> simp_all
    · rintro hd
      obtain rfl := Option.some.inj hd
      exact hbody body rfl
  · cases h
  · exact next?_slash (by simpa using h)
  · rename_i c s _ _ hbang hslash
    have hc : c.isAlpha = false := by simpa using h
    by_cases hcs : c = '/'
    · subst hcs
      rcases s with _ | ⟨d, s⟩
      · refine next?_slash ?_
        rcases rest with _ | ⟨d, rest⟩ <;> simp_all
      · exact absurd rfl (hslash d s rfl)
    · exact next?_other hc hbang hcs _
  · rcases rest with _ | ⟨d, rest⟩
    · rfl
    · obtain rfl : d = '<' := by simpa using hrest
      rfl

/-- The end of harmless text is harmless. -/
theorem isHarmless_append_right {s t : List Char} (h : isHarmless (s ++ t) = true) :
    isHarmless t = true := by
  induction s with
  | nil => exact h
  | cons c s ih =>
    rw [List.cons_append, isHarmless, Bool.and_eq_true] at h
    exact ih h.2

/-- What stands before a `<` or the end is cut as if nothing followed. -/
theorem span_append {s rest : List Char} (hrest : rest.head?.all (· == '<') = true) :
    (s ++ rest).takeWhile (· != '<') = s.takeWhile (· != '<') ∧
      (s ++ rest).dropWhile (· != '<') = s.dropWhile (· != '<') ++ rest := by
  induction s with
  | nil =>
    rcases rest with _ | ⟨c, rest⟩
    · exact ⟨rfl, rfl⟩
    · obtain rfl : c = '<' := by simpa using hrest
      exact ⟨rfl, rfl⟩
  | cons c s ih =>
    by_cases hc : c = '<'
    · subst hc
      exact ⟨rfl, rfl⟩
    · simp [hc, ih.1, ih.2]

/-- A harmless text starts with a lexeme that is read as text, and is harmless behind it. -/
theorem next?_harmless (hs : isHarmless s = true) (hne : s ≠ [])
    (hrest : rest.head?.all (· == '<') = true) :
    ∃ l t, s = l.text ++ t ∧ l.isText = true ∧ isHarmless t = true ∧
      next? (s ++ rest) = some (l, t ++ rest) := by
  obtain ⟨c, s, rfl⟩ := List.exists_cons_of_ne_nil hne
  have hparts := hs
  rw [isHarmless, Bool.and_eq_true, Bool.or_eq_true, bne_iff_ne] at hparts
  by_cases hc : c = '<'
  · subst hc
    have hstray : isStray s = true := hparts.1.resolve_left fun h => h rfl
    exact ⟨⟨['<'], none⟩, s, rfl, rfl, hparts.2, next?_stray hstray hrest⟩
  · have hsplit : c :: s = (c :: s.takeWhile (· != '<')) ++ s.dropWhile (· != '<') := by
      rw [List.cons_append, List.takeWhile_append_dropWhile]
    have hspan := span_append (s := s) hrest
    have hnext := next?_text hc (s ++ rest)
    rw [hspan.1, hspan.2] at hnext
    refine ⟨_, s.dropWhile (· != '<'), hsplit, ?_, ?_, hnext⟩
    · rfl
    · rw [hsplit] at hs
      exact isHarmless_append_right hs

end Lexeme
end Markup
end HtmlCompose
