/-
# The argument of a bootstrap is the data

A bootstrap calls a behavior with the data of a render, written as JSON, in which every `</` is
written `<\/`.  A `<` can be read inside a quoted text only, and there an escaped solidus is a
solidus.  So what a text is read as, the escaped text is read as too (`read?_escapeScript`).

| what is read | |
| --- | --- |
| gaps and digits | no `<` is among them (`dropWhile_escapeScript`) |
| a number | as before (`number_escapeScript`) |
| a quoted text | as before, in as many steps (`stringBody_escapeScript`) |
| a value | as before, by recursion over its items and entries (`value_escapeScript`) |

With what is known of the scripts as nodes this says that the two scripts of a behavior are what
they are meant to be (`scripts_contained`).
-/
import HtmlCompose.Proofs.Data.RoundTrip
import HtmlCompose.Proofs.Enhance.Scripts

namespace HtmlCompose

namespace Behavior

/-! ### Escaped texts -/

/-- Any character but a `<` is written as it is. -/
theorem escapeScript_cons {c : Char} (hc : c ≠ '<') (s : List Char) :
    escapeScript (c :: s) = c :: escapeScript s := by
  rcases s with _ | ⟨d, s⟩
  · rfl
  · rw [escapeScript, Text.replacePair, if_neg fun h => hc h.1, escapeScript]

/-- A closing bracket gets a backslash between its characters. -/
theorem escapeScript_closing (s : List Char) :
    escapeScript ('<' :: '/' :: s) = '<' :: '\\' :: escapeScript ('/' :: s) := by
  rw [escapeScript_cons (c := '/') (by decide)]
  rfl

/-- A `<` is written as it is unless a solidus follows. -/
theorem escapeScript_opening {s : List Char} (h : s.head? ≠ some '/') :
    escapeScript ('<' :: s) = '<' :: escapeScript s := by
  rcases s with _ | ⟨d, s⟩
  · rfl
  · rw [escapeScript, Text.replacePair, if_neg fun hd => h (congrArg some hd.2), escapeScript]

/-- The first character stays. -/
theorem exists_escapeScript_cons (c : Char) (s : List Char) :
    ∃ t, escapeScript (c :: s) = c :: t := by
  by_cases hc : c = '<'
  · subst hc
    by_cases hs : s.head? = some '/'
    · obtain ⟨s, rfl⟩ := List.head?_eq_some_iff.1 hs
      exact ⟨_, escapeScript_closing s⟩
    · exact ⟨_, escapeScript_opening hs⟩
  · exact ⟨_, escapeScript_cons hc s⟩

/-- What does not start with a character does not start with it once escaped. -/
theorem escapeScript_ne_cons {c : Char} {s : List Char} (h : ∀ t, s ≠ c :: t) (t : List Char) :
    escapeScript s ≠ c :: t := by
  rcases s with _ | ⟨d, s⟩
  · nofun
  · obtain ⟨t', ht'⟩ := exists_escapeScript_cons d s
    rw [ht']
    intro heq
    exact h s (by rw [(List.cons.inj heq).1])

variable {p : Char → Bool}

/-- A class without `<` has only other characters. -/
theorem ne_of_class {c : Char} (hp : p '<' = false) (hc : p c = true) : c ≠ '<' := by
  rintro rfl
  rw [hp] at hc
  cases hc

/-- Dropping characters of a class without `<` may be done before escaping or after. -/
theorem dropWhile_escapeScript (hp : p '<' = false) (s : List Char) :
    (escapeScript s).dropWhile p = escapeScript (s.dropWhile p) := by
  induction s with
  | nil => rfl
  | cons c s ih =>
    by_cases hc : p c = true
    · rw [escapeScript_cons (ne_of_class hp hc), List.dropWhile_cons_of_pos hc,
        List.dropWhile_cons_of_pos hc, ih]
    · obtain ⟨t, ht⟩ := exists_escapeScript_cons c s
      rw [List.dropWhile_cons_of_neg hc, ht, List.dropWhile_cons_of_neg hc]

/-- Characters of a class without `<` are taken as they are. -/
theorem takeWhile_escapeScript (hp : p '<' = false) (s : List Char) :
    (escapeScript s).takeWhile p = s.takeWhile p := by
  induction s with
  | nil => rfl
  | cons c s ih =>
    by_cases hc : p c = true
    · rw [escapeScript_cons (ne_of_class hp hc), List.takeWhile_cons_of_pos hc,
        List.takeWhile_cons_of_pos hc, ih]
    · obtain ⟨t, ht⟩ := exists_escapeScript_cons c s
      rw [List.takeWhile_cons_of_neg hc, ht, List.takeWhile_cons_of_neg hc]

end Behavior

namespace Json
namespace Reader

open Behavior

/-- What has been read, with what is left escaped. -/
def leftEscaped {α : Type} (found : α × List Char) : α × List Char :=
  (found.1, escapeScript found.2)

/-- Gaps are skipped before escaping or after. -/
theorem skipGaps_escapeScript (s : List Char) :
    skipGaps (escapeScript s) = escapeScript (skipGaps s) := dropWhile_escapeScript rfl s

/-! ### Numbers -/

/-- A fraction is read alike with what stands behind it escaped. -/
theorem fraction_escapeScript (s : List Char) :
    fraction (escapeScript s) = (fraction s).map leftEscaped := by
  rcases s with _ | ⟨c, s⟩
  · rfl
  · by_cases hc : c = '.'
    · subst hc
      rw [escapeScript_cons (by decide)]
      simp only [fraction, takeWhile_escapeScript (p := Char.isDigit) rfl,
        dropWhile_escapeScript (p := Char.isDigit) rfl]
      split_ifs <;> rfl
    · obtain ⟨t, ht⟩ := exists_escapeScript_cons c s
      have hplain : ∀ t, fraction (c :: t) = some ([], c :: t) := fun t => by
        unfold fraction
        split
        · next heq => exact absurd (List.cons.inj heq).1 hc
        · rfl
      rw [ht, hplain, hplain, ← ht]
      rfl

/-- The digits of an exponent are read alike. -/
theorem exponentDigits_escapeScript (s : List Char) :
    exponentDigits (escapeScript s) = (exponentDigits s).map leftEscaped := by
  have hdigits : ∀ (negative : Bool) (s : List Char),
      ((Text.readNat 10 ((escapeScript s).takeWhile Char.isDigit)).map fun n =>
          ((if negative then -(n : ℤ) else n), (escapeScript s).dropWhile Char.isDigit)) =
        ((Text.readNat 10 (s.takeWhile Char.isDigit)).map fun n =>
          ((if negative then -(n : ℤ) else n), s.dropWhile Char.isDigit)).map leftEscaped := by
    intro negative s
    rw [takeWhile_escapeScript rfl, dropWhile_escapeScript rfl, Option.map_map]
    rfl
  rcases s with _ | ⟨c, s⟩
  · rfl
  · by_cases hplus : c = '+'
    · subst hplus
      rw [escapeScript_cons (by decide)]
      exact hdigits false s
    · by_cases hminus : c = '-'
      · subst hminus
        rw [escapeScript_cons (by decide)]
        exact hdigits true s
      · have hplain : ∀ t, exponentDigits (c :: t) =
            ((Text.readNat 10 ((c :: t).takeWhile Char.isDigit)).map fun n =>
              ((if false then -(n : ℤ) else n), (c :: t).dropWhile Char.isDigit)) := fun t => by
          unfold exponentDigits
          split
          next heq =>
            split at heq
            · next h => exact absurd (List.cons.inj h).1 hplus
            · next h => exact absurd (List.cons.inj h).1 hminus
            · obtain ⟨rfl, rfl⟩ := Prod.mk.inj heq
              rfl
        obtain ⟨t, ht⟩ := exists_escapeScript_cons c s
        rw [ht, hplain, hplain, ← ht]
        exact hdigits false (c :: s)

/-- An exponent is read alike. -/
theorem exponent_escapeScript (s : List Char) :
    exponent (escapeScript s) = (exponent s).map leftEscaped := by
  rcases s with _ | ⟨c, s⟩
  · rfl
  · by_cases hc : c = 'e' ∨ c = 'E'
    · have hpower : ∀ t, exponent (c :: t) =
          (exponentDigits t).map fun found => (some found.1, found.2) := fun t => by
        rcases hc with rfl | rfl <;> rfl
      have hne : c ≠ '<' := by rcases hc with rfl | rfl <;> decide
      rw [escapeScript_cons hne, hpower, hpower, exponentDigits_escapeScript, Option.map_map,
        Option.map_map]
      rfl
    · have hplain : ∀ t, exponent (c :: t) = some (none, c :: t) := fun t => by
        unfold exponent
        split
        · next heq => exact absurd (.inl (List.cons.inj heq).1) hc
        · next heq => exact absurd (.inr (List.cons.inj heq).1) hc
        · rfl
      obtain ⟨t, ht⟩ := exists_escapeScript_cons c s
      rw [ht, hplain, hplain, ← ht]
      rfl

/-- A number without its sign is read alike. -/
theorem unsigned_escapeScript (kept negative : Bool) (s : List Char) :
    unsigned kept negative (escapeScript s) = (unsigned kept negative s).map leftEscaped := by
  simp only [unsigned, takeWhile_escapeScript (p := Char.isDigit) rfl,
    dropWhile_escapeScript (p := Char.isDigit) rfl, fraction_escapeScript]
  split
  · rfl
  split
  · rfl
  rcases fraction (s.dropWhile Char.isDigit) with _ | ⟨fractional, rest⟩
  · rfl
  simp only [Option.map_some, leftEscaped, Option.bind_eq_bind, Option.bind_some,
    exponent_escapeScript]
  rcases exponent rest with _ | ⟨power, rest⟩
  · rfl
  simp only [Option.map_some, leftEscaped, Option.bind_some]
  split_ifs
  · rfl
  · cases wholeNumber? negative (s.takeWhile Char.isDigit) <;> rfl
  · cases Significand.toDouble? _ negative <;> rfl

/-- **A number is read as before**, with what stands behind it escaped. -/
theorem number_escapeScript (kept : Bool) (s : List Char) :
    number kept (escapeScript s) = (number kept s).map leftEscaped := by
  rcases s with _ | ⟨c, s⟩
  · rfl
  · by_cases hminus : c = '-'
    · subst hminus
      rw [escapeScript_cons (by decide)]
      exact unsigned_escapeScript kept true s
    · have hplain : ∀ t, number kept (c :: t) = unsigned kept false (c :: t) := fun t => by
        unfold number
        split
        · next heq => exact absurd (List.cons.inj heq).1 hminus
        · rfl
      obtain ⟨t, ht⟩ := exists_escapeScript_cons c s
      rw [ht, hplain, hplain, ← ht]
      exact unsigned_escapeScript kept false (c :: s)

/-! ### Quoted texts -/

variable {kept : Bool} {n m depth : Nat} {s r : List Char}

/-- Four hexadecimal digits are read as before. -/
theorem hex4_escapeScript {value : Nat} (h : hex4 s = some (value, r)) :
    hex4 (escapeScript s) = some (value, escapeScript r) := by
  have hne : ∀ {c : Char} {digit : Nat}, Text.digitOf 16 c = some digit → c ≠ '<' := by
    rintro c digit hc rfl
    cases hc
  rcases s with _ | ⟨a, _ | ⟨b, _ | ⟨c, _ | ⟨d, s⟩⟩⟩⟩
  iterate 4 cases h
  have hdigits := h
  rw [hex4] at hdigits
  simp only [Option.bind_eq_bind, Option.bind_eq_some_iff] at hdigits
  obtain ⟨_, ha, _, hb, _, hc, _, hd, heq⟩ := hdigits
  obtain ⟨-, rfl⟩ := Prod.mk.inj (Option.some.inj heq)
  rw [escapeScript_cons (hne ha), escapeScript_cons (hne hb), escapeScript_cons (hne hc),
    escapeScript_cons (hne hd)]
  rw [hex4] at h ⊢
  simp only [ha, hb, hc, hd, Option.bind_eq_bind, Option.bind_some, Option.some.injEq,
    Prod.mk.injEq, and_true] at h ⊢
  exact h

/-- The second half of a pair is read as before. -/
theorem lowHalf_escapeScript {value : Nat} (h : lowHalf s = some (value, r)) :
    lowHalf (escapeScript s) = some (value, escapeScript r) := by
  unfold lowHalf at h
  split at h
  · next rest =>
    obtain ⟨hvalue, hrange⟩ := Option.filter_eq_some_iff.1 h
    rw [escapeScript_cons (by decide), escapeScript_cons (by decide), lowHalf,
      hex4_escapeScript hvalue]
    exact Option.filter_eq_some_iff.2 ⟨rfl, hrange⟩
  · cases h

/-- A numeric escape is read as before. -/
theorem numericEscape_escapeScript {c : Char} (h : numericEscape kept s = some (c, r)) :
    numericEscape kept (escapeScript s) = some (c, escapeScript r) := by
  rw [numericEscape] at h ⊢
  obtain ⟨⟨value, rest⟩, hvalue, h⟩ := Option.bind_eq_some_iff.1 h
  rw [hex4_escapeScript hvalue]
  simp only [Option.bind_eq_bind, Option.bind_some] at h ⊢
  split_ifs at h ⊢
  · obtain ⟨rfl, rfl⟩ := Prod.mk.inj (Option.some.inj h)
    rfl
  · obtain ⟨⟨low, rest'⟩, hlow, h⟩ := Option.bind_eq_some_iff.1 h
    obtain ⟨rfl, rfl⟩ := Prod.mk.inj (Option.some.inj h)
    rw [lowHalf_escapeScript hlow]
    rfl

/-- One character and what stands behind it. -/
def readOn (kept : Bool) (n : Nat) (c : Char) (s : List Char) : Option (List Char × List Char) :=
  (stringBody kept n s).map fun found => (c :: found.1, found.2)

/-- A character that is no quote, no backslash and no control character stands for itself. -/
theorem stringBody_plain {c : Char} (hquote : c ≠ '"') (hslash : c ≠ '\\')
    (hcontrol : ¬c.toNat < 0x20) (n : Nat) (s : List Char) :
    stringBody kept (n + 1) (c :: s) = readOn kept n c s := by
  rw [stringBody.eq_def]
  simp only [if_neg hquote, if_neg hslash, if_neg hcontrol]
  rw [readOn]
  cases stringBody kept n s <;> rfl

/-- A backslash and a letter stand for the character that the letter names. -/
theorem stringBody_letter {e : Char} (he : e ≠ 'u') (n : Nat) (s : List Char) :
    stringBody kept (n + 1) ('\\' :: e :: s) = (escaped e).bind fun c => readOn kept n c s := by
  rw [stringBody.eq_def]
  simp only [if_neg (show '\\' ≠ '"' by decide), if_true]
  rcases escaped e with _ | c
  · rfl
  · show (stringBody kept n s).bind _ = readOn kept n c s
    rw [readOn]
    cases stringBody kept n s <;> rfl

/-- A backslash and a `u` stand for the character of that number. -/
theorem stringBody_number (n : Nat) (s : List Char) :
    stringBody kept (n + 1) ('\\' :: 'u' :: s) =
      (numericEscape kept s).bind fun found => readOn kept n found.1 found.2 := by
  rw [stringBody.eq_def]
  simp only [if_neg (show '\\' ≠ '"' by decide), if_true]
  rcases numericEscape kept s with _ | ⟨c, rest⟩
  · rfl
  · show (stringBody kept n rest).bind _ = readOn kept n c rest
    rw [readOn]
    cases stringBody kept n rest <;> rfl

/-- A solidus may be escaped. -/
theorem stringBody_solidus (n : Nat) (s : List Char) :
    stringBody kept n ('\\' :: '/' :: s) = stringBody kept n ('/' :: s) := by
  rcases n with _ | n
  · rfl
  · rw [stringBody_letter (by decide), stringBody_plain (by decide) (by decide) (by decide)]
    rfl

/-- **A quoted text is read as before**, in as many steps. -/
theorem stringBody_escapeScript {cs : List Char} (h : stringBody kept n s = some (cs, r))
    (hm : n ≤ m) : stringBody kept m (escapeScript s) = some (cs, escapeScript r) := by
  induction n generalizing s cs m with
  | zero => cases h
  | succ n ih =>
    obtain ⟨m, rfl⟩ : ∃ k, m = k + 1 := ⟨m - 1, by omega⟩
    have hnext : ∀ {c : Char} {s : List Char}, readOn kept n c s = some (cs, r) →
        readOn kept m c (escapeScript s) = some (cs, escapeScript r) := by
      intro c s hread
      obtain ⟨⟨body, rest⟩, hbody, heq⟩ := Option.map_eq_some_iff.1 hread
      obtain ⟨rfl, rfl⟩ := Prod.mk.inj heq
      rw [readOn, ih hbody (Nat.le_of_succ_le_succ hm)]
      rfl
    rcases s with _ | ⟨c, s⟩
    · cases h
    by_cases hquote : c = '"'
    · subst hquote
      obtain ⟨rfl, rfl⟩ := Prod.mk.inj (Option.some.inj h)
      rw [escapeScript_cons (by decide)]
      rfl
    by_cases hslash : c = '\\'
    · subst hslash
      rw [escapeScript_cons (by decide)]
      rcases s with _ | ⟨e, s⟩
      · cases h
      by_cases he : e = 'u'
      · subst he
        rw [stringBody_number] at h
        obtain ⟨⟨c, rest⟩, hc, hread⟩ := Option.bind_eq_some_iff.1 h
        rw [escapeScript_cons (by decide), stringBody_number, numericEscape_escapeScript hc]
        exact hnext hread
      · rw [stringBody_letter he] at h
        obtain ⟨c, hc, hread⟩ := Option.bind_eq_some_iff.1 h
        have hne : e ≠ '<' := by
          rintro rfl
          cases hc
        rw [escapeScript_cons hne, stringBody_letter he, hc]
        exact hnext hread
    by_cases hcontrol : c.toNat < 0x20
    · rw [stringBody.eq_def] at h
      simp only [if_neg hquote, if_neg hslash, if_pos hcontrol] at h
      cases h
    rw [stringBody_plain hquote hslash hcontrol] at h
    have hread := hnext h
    by_cases hopen : c = '<' ∧ s.head? = some '/'
    · obtain ⟨rfl, hs⟩ := hopen
      obtain ⟨s, rfl⟩ := List.head?_eq_some_iff.1 hs
      rw [escapeScript_cons (c := '/') (by decide)] at hread
      rw [escapeScript_closing, escapeScript_cons (c := '/') (by decide),
        stringBody_plain hquote hslash hcontrol, readOn, stringBody_solidus]
      exact hread
    · have hcons : escapeScript (c :: s) = c :: escapeScript s := by
        by_cases hc : c = '<'
        · subst hc
          exact escapeScript_opening fun hs => hopen ⟨rfl, hs⟩
        · exact escapeScript_cons hc s
      rw [hcons, stringBody_plain hquote hslash hcontrol]
      exact hread

/-- Escaping never shortens a text. -/
theorem length_le_escapeScript (s : List Char) : s.length ≤ (escapeScript s).length := by
  rw [escapeScript]
  fun_induction Text.replacePair with
  | case1 => exact Nat.le_refl 0
  | case2 c => exact Nat.le_refl 1
  | case3 c d rest _ ih => simp only [List.length_append, List.length_cons, List.length_nil]; omega
  | case4 c d rest _ ih => simpa using ih

/-- A quoted text is read as before, whatever its length. -/
theorem string_escapeScript {text : String} (h : string kept s = some (text, r)) :
    string kept (escapeScript s) = some (text, escapeScript r) := by
  obtain ⟨⟨cs, rest⟩, hbody, heq⟩ := Option.map_eq_some_iff.1 h
  obtain ⟨rfl, rfl⟩ := Prod.mk.inj heq
  have hlength := length_le_escapeScript s
  rw [string, stringBody_escapeScript hbody (by omega)]
  rfl

/-! ### Values -/

/-- A number starts with a sign or a digit. -/
theorem exists_of_number {x : Number} (h : number kept s = some (x, r)) :
    ∃ c t, s = c :: t ∧ (c = '-' ∨ c.isDigit = true) := by
  rcases s with _ | ⟨c, s⟩
  · cases h
  · refine ⟨c, s, rfl, or_iff_not_imp_left.2 fun hminus => ?_⟩
    by_contra hdigit
    unfold number at h
    split at h
    · next heq => exact hminus (List.cons.inj heq).1
    · rw [unsigned, List.takeWhile_cons_of_neg hdigit] at h
      cases h

/-- A text from which a number can be read is read as that number. -/
theorem value_of_number {x : Number} (h : number kept (skipGaps s) = some (x, r)) (n depth : Nat) :
    value kept (n + 1) depth s = some (.number x, r) := by
  obtain ⟨c, t, hs, hc⟩ := exists_of_number h
  rw [value]
  split <;> rename_i heq <;> first
    | rw [h]; rfl
    | rw [hs] at heq
      obtain ⟨rfl, -⟩ := List.cons.inj heq
      exact absurd hc (by decide)

mutual
/-- **A value is read as before**, in as many steps. -/
theorem value_escapeScript {kept : Bool} : ∀ {n m depth : Nat} {s r : List Char} {v : Json},
    value kept n depth s = some (v, r) → n ≤ m →
      value kept m depth (escapeScript s) = some (v, escapeScript r)
  | 0, _, _, _, _, _, h, _ => by cases h
  | n + 1, m, depth, s, r, v, h, hm => by
    obtain ⟨m, rfl⟩ : ∃ k, m = k + 1 := ⟨m - 1, by omega⟩
    have hm' : n ≤ m := Nat.le_of_succ_le_succ hm
    have hskip := skipGaps_escapeScript s
    rw [value] at h
    split at h
    · next heq =>
      obtain ⟨rfl, rfl⟩ := Prod.mk.inj (Option.some.inj h)
      rw [value, hskip, heq]
      iterate 4 rw [escapeScript_cons (by decide)]
      rfl
    · next heq =>
      obtain ⟨rfl, rfl⟩ := Prod.mk.inj (Option.some.inj h)
      rw [value, hskip, heq]
      iterate 4 rw [escapeScript_cons (by decide)]
      rfl
    · next heq =>
      obtain ⟨rfl, rfl⟩ := Prod.mk.inj (Option.some.inj h)
      rw [value, hskip, heq]
      iterate 5 rw [escapeScript_cons (by decide)]
      rfl
    · next rest heq =>
      obtain ⟨⟨text, rest'⟩, hstring, h⟩ := Option.map_eq_some_iff.1 h
      obtain ⟨rfl, rfl⟩ := Prod.mk.inj h
      rw [value, hskip, heq, escapeScript_cons (by decide)]
      show (string kept (escapeScript rest)).map _ = _
      rw [string_escapeScript hstring]
      rfl
    · next rest heq =>
      rw [value, hskip, heq, escapeScript_cons (by decide)]
      show (if kept = true ∧ depth = 0 then none else _) = _
      split_ifs at h ⊢ with hdepth
      rw [skipGaps_escapeScript]
      split at h
      · next hclose =>
        obtain ⟨rfl, rfl⟩ := Prod.mk.inj (Option.some.inj h)
        rw [hclose, escapeScript_cons (by decide)]
        rfl
      · next hclose =>
        obtain ⟨⟨vs, rest'⟩, hitems, h⟩ := Option.map_eq_some_iff.1 h
        obtain ⟨rfl, rfl⟩ := Prod.mk.inj h
        split
        · next heq => exact absurd heq (escapeScript_ne_cons hclose _)
        · rw [items_escapeScript hitems hm']
          rfl
    · next rest heq =>
      rw [value, hskip, heq, escapeScript_cons (by decide)]
      show (if kept = true ∧ depth = 0 then none else _) = _
      split_ifs at h ⊢ with hdepth
      rw [skipGaps_escapeScript]
      split at h
      · next hclose =>
        obtain ⟨rfl, rfl⟩ := Prod.mk.inj (Option.some.inj h)
        rw [hclose, escapeScript_cons (by decide)]
        rfl
      · next hclose =>
        obtain ⟨⟨fields, rest'⟩, hmembers, h⟩ := Option.map_eq_some_iff.1 h
        obtain ⟨rfl, rfl⟩ := Prod.mk.inj h
        split
        · next heq => exact absurd heq (escapeScript_ne_cons hclose _)
        · rw [members_escapeScript hmembers hm']
          rfl
    · next heq =>
      obtain ⟨⟨x, rest⟩, hnumber, h⟩ := Option.map_eq_some_iff.1 h
      obtain ⟨rfl, rfl⟩ := Prod.mk.inj h
      refine value_of_number ?_ m depth
      rw [hskip, number_escapeScript, hnumber]
      rfl

/-- The items of an array are read as before. -/
theorem items_escapeScript {kept : Bool} : ∀ {n m depth : Nat} {s r : List Char} {vs : List Json},
    items kept n depth s = some (vs, r) → n ≤ m →
      items kept m depth (escapeScript s) = some (vs, escapeScript r)
  | 0, _, _, _, _, _, h, _ => by cases h
  | n + 1, m, depth, s, r, vs, h, hm => by
    obtain ⟨m, rfl⟩ : ∃ k, m = k + 1 := ⟨m - 1, by omega⟩
    have hm' : n ≤ m := Nat.le_of_succ_le_succ hm
    rw [items] at h ⊢
    obtain ⟨⟨v, rest⟩, hv, h⟩ := Option.bind_eq_some_iff.1 h
    rw [value_escapeScript hv hm']
    simp only [Option.bind_eq_bind, Option.bind_some] at h ⊢
    rw [skipGaps_escapeScript]
    split at h
    · next heq =>
      obtain ⟨rfl, rfl⟩ := Prod.mk.inj (Option.some.inj h)
      rw [heq, escapeScript_cons (by decide)]
      rfl
    · next heq =>
      obtain ⟨⟨ws, rest'⟩, hitems, h⟩ := Option.bind_eq_some_iff.1 h
      obtain ⟨rfl, rfl⟩ := Prod.mk.inj (Option.some.inj h)
      rw [heq, escapeScript_cons (by decide)]
      show (items kept m depth _).bind _ = _
      rw [items_escapeScript hitems hm']
      rfl
    · cases h

/-- The entries of an object are read as before. -/
theorem members_escapeScript {keptKeys : Bool} {kept : String → Bool} :
    ∀ {n m depth : Nat} {s r : List Char} {fields : List (String × Json)},
      members keptKeys kept n depth s = some (fields, r) → n ≤ m →
        members keptKeys kept m depth (escapeScript s) = some (fields, escapeScript r)
  | 0, _, _, _, _, _, h, _ => by cases h
  | n + 1, m, depth, s, r, fields, h, hm => by
    obtain ⟨m, rfl⟩ : ∃ k, m = k + 1 := ⟨m - 1, by omega⟩
    have hm' : n ≤ m := Nat.le_of_succ_le_succ hm
    have hskip := skipGaps_escapeScript s
    rw [members] at h
    split at h
    · next keyText heq =>
      obtain ⟨⟨key, rest⟩, hkey, h⟩ := Option.bind_eq_some_iff.1 h
      rw [members, hskip, heq, escapeScript_cons (by decide)]
      show (string keptKeys (escapeScript keyText)).bind _ = _
      rw [string_escapeScript hkey, Option.bind_some]
      dsimp only at h ⊢
      rw [skipGaps_escapeScript]
      split at h
      · next colon =>
        obtain ⟨⟨v, rest'⟩, hv, h⟩ := Option.bind_eq_some_iff.1 h
        rw [colon, escapeScript_cons (by decide)]
        show (value (kept key) m depth _).bind _ = _
        rw [value_escapeScript hv hm', Option.bind_some]
        dsimp only at h ⊢
        rw [skipGaps_escapeScript]
        split at h
        · next hclose =>
          obtain ⟨rfl, rfl⟩ := Prod.mk.inj (Option.some.inj h)
          rw [hclose, escapeScript_cons (by decide)]
          rfl
        · next hcomma =>
          obtain ⟨⟨more, rest''⟩, hmembers, h⟩ := Option.bind_eq_some_iff.1 h
          obtain ⟨rfl, rfl⟩ := Prod.mk.inj (Option.some.inj h)
          rw [hcomma, escapeScript_cons (by decide)]
          show (members keptKeys kept m depth _).bind _ = _
          rw [members_escapeScript hmembers hm']
          rfl
        · cases h
      · cases h
    · cases h
end

end Reader

open Behavior

/-- **Escaping does not change what a text is read as.** -/
theorem read?_escapeScript {text : String} {v : Json} (h : read? text = some v) :
    read? (String.ofList (escapeScript text.toList)) = some v := by
  obtain ⟨⟨w, rest⟩, hvalue, hwhole⟩ := Option.bind_eq_some_iff.1 h
  have hsteps : Reader.steps text.toList ≤ Reader.steps (escapeScript text.toList) := by
    have hlength := Reader.length_le_escapeScript text.toList
    rw [Reader.steps, Reader.steps]
    omega
  rw [read?, String.toList_ofList, Reader.value_escapeScript hvalue hsteps, Option.bind_some]
  rw [Reader.whole] at hwhole ⊢
  split_ifs at hwhole with hempty
  rw [Reader.skipGaps_escapeScript, List.isEmpty_iff.1 hempty]
  exact hwhole

end Json

namespace Behavior

open Markup Head

variable {globalName id compiled : String} {data : Data}

/-! ### The scripts as assets -/

/-- A script is identified by its `id`, or else by its `src`. -/
theorem key_script (attrs : List Attribute) (text : String) :
    AssetKey.of (script attrs text) =
      (((Element.attr? ⟨"script", attrs⟩ "id").or
        (Element.attr? ⟨"script", attrs⟩ "src")).map AssetKey.script).getD .unkeyed := by
  have hlink : Element.is ⟨"script", attrs⟩ "link" = false :=
    show sameName "script" "link" = false by decide
  have hscript : Element.is ⟨"script", attrs⟩ "script" = true :=
    show sameName "script" "script" = true by decide
  have hkey : AssetKey.of (script attrs text) =
      if Element.is ⟨"script", attrs⟩ "link" then
        ((Element.attr? ⟨"script", attrs⟩ "href").map AssetKey.link).getD .unkeyed
      else if Element.is ⟨"script", attrs⟩ "script" then
        (((Element.attr? ⟨"script", attrs⟩ "id").or
          (Element.attr? ⟨"script", attrs⟩ "src")).map AssetKey.script).getD .unkeyed
      else if Element.is ⟨"script", attrs⟩ "style" then
        .style (Forest.textContent [script attrs text])
      else .unkeyed := rfl
  rw [hkey, hlink, hscript]
  rfl

/-- **Neither script of a behavior can escape its element, and the argument of the call is the
data.**  The markup of a registration and the markup of a bootstrap are read as one script that
holds one text; the identity of that script is the one that the asset has been given; and what a
bootstrap has between the parentheses of its call is read as the data, if they are without doubles
and nested at most 127 deep.  The name of the window property must not hold `</`, and the name of
the component must have letters and digits only, as hexadecimal ones do. -/
theorem scripts_contained (hglobal : ¬['<', '/'] <:+: globalName.toList)
    (hid : id.toList.all Char.isAlphanum = true) (hdata : (Json.object data).Readable) :
    (parse (registration globalName id compiled).markup =
        .ok [script (registrationAttrs id) (registrationText globalName id compiled)] ∧
      AssetKey.of (script (registrationAttrs id) (registrationText globalName id compiled)) =
        (registration globalName id compiled).key) ∧
    ∃ argument,
      parse (bootstrap globalName id data).markup =
          .ok [script [] (call globalName id ++ argument ++ "); \x7d);")] ∧
        AssetKey.of (script [] (call globalName id ++ argument ++ "); \x7d);")) =
          (bootstrap globalName id data).key ∧
        Json.read? argument = some (.object data) := by
  have hglobal' : Unclosing globalName.toList := unclosing_iff.2 hglobal
  have hread : Json.read? (Json.object data).print = some (.object data) := Json.read?_print hdata
  have hargument := Json.read?_escapeScript hread
  rw [Json.print, String.toList_ofList] at hargument
  refine ⟨⟨parse_registration hglobal' hid, ?_⟩, _, parse_bootstrap hglobal' hid, ?_, hargument⟩
  · rw [key_script, attr?_registrationAttrs]
    rfl
  · rw [key_script]
    rfl

/-- Data with closing tags, in a key too, and with solidi of other kinds. -/
def hostileData : Data :=
  [("</script>", .string "<<//\\/</<\\/script>"),
    ("list", .array [.string "</", .number (.int (-3))])]

/-- The hypotheses are satisfiable, and the closing tag is written `<\/script>`. -/
theorem scripts_contained_hostile : ¬['<', '/'] <:+: "__components".toList ∧
    "3660315a9af3".toList.all Char.isAlphanum = true ∧ (Json.object hostileData).Readable ∧
    parse (registration "__components" "3660315a9af3" "f('</script>')").markup =
      .ok [script [⟨"id", "component-3660315a9af3", false⟩]
        (registrationText "__components" "3660315a9af3" "f('</script>')")] ∧
    ∃ argument,
      parse (bootstrap "__components" "3660315a9af3" hostileData).markup =
          .ok [script [] (call "__components" "3660315a9af3" ++ argument ++ "); \x7d);")] ∧
        Json.read? argument = some (.object hostileData) := by
  have hglobal : ¬['<', '/'] <:+: "__components".toList := by decide
  have hid : "3660315a9af3".toList.all Char.isAlphanum = true := by decide
  have hdata : (Json.object hostileData).Readable := by
    refine ⟨⟨by decide, trivial, ⟨trivial, ⟨by decide, by decide⟩, trivial⟩, trivial⟩, by decide⟩
  obtain ⟨⟨hregistration, -⟩, argument, hbootstrap, -, hargument⟩ :=
    @scripts_contained "__components" "3660315a9af3" "f('</script>')" hostileData hglobal hid hdata
  exact ⟨hglobal, hid, hdata, hregistration, argument, hbootstrap, hargument⟩

end Behavior
end HtmlCompose
