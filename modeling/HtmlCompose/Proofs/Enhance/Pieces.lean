/-
# The pieces of a script

A script is a row of strings, comments and single characters (`pieces`, `flatMap_text_pieces`).

| piece | begins with | ends |
| --- | --- | --- |
| string | a quote, an apostrophe or a backtick | with the next such character behind no backslash |
| line comment | `//` | before the line feed |
| block comment | `/*` | with the next `*/` |
| character | any other | at once |

Stripping a script that is accepted takes out the comments and keeps the other pieces as they are
(`kept_of_strip`): every string ends, only one in backticks has a line feed in it that no backslash
stands before, and behind a slash no other slash or star follows.
-/
import HtmlCompose.Proofs.Enhance.Compiling

namespace HtmlCompose
namespace Script

/-- A piece of a script. -/
inductive Piece where
  | literal (text : List Char)
  | comment (text : List Char)
  | char (c : Char)
deriving DecidableEq, Repr

namespace Piece

/-- What stands in the script. -/
def text : Piece → List Char
  | literal text | comment text => text
  | char c => [c]

/-- The piece is a comment. -/
def isComment : Piece → Bool
  | comment _ => true
  | _ => false

/-- The string that the piece is. -/
def literal? : Piece → Option (List Char)
  | literal text => some text
  | _ => none

end Piece

/-- What a string holds up to its closing quote, and what follows it; the flag tells that a
backslash stands in front. -/
def closing (quote : Char) : Bool → List Char → Option (List Char × List Char)
  | _, [] => none
  | escaped, c :: s =>
    if !escaped && c == quote then some ([c], s)
    else (closing quote (!escaped && c == '\\') s).map fun (body, rest) => (c :: body, rest)

variable {q c : Char} {e : Bool} {s t x body rest : List Char} {ps : List Piece}

/-- A string ends with a character, or goes on behind it. -/
theorem closing_cons (h : closing q e (c :: s) = some (body, rest)) :
    (c = q ∧ e = false ∧ body = [c] ∧ rest = s) ∨ (!e && c == q) = false ∧
      ∃ body', closing q (!e && c == '\\') s = some (body', rest) ∧ body = c :: body' := by
  rw [closing] at h
  split_ifs at h with hend
  · obtain ⟨rfl, rfl⟩ := Prod.mk.inj (Option.some.inj h)
    simp only [Bool.and_eq_true, Bool.not_eq_true', beq_iff_eq] at hend
    exact .inl ⟨hend.2, hend.1, rfl, rfl⟩
  · obtain ⟨⟨body', rest'⟩, hs, heq⟩ := Option.map_eq_some_iff.1 h
    obtain ⟨rfl, rfl⟩ := Prod.mk.inj heq
    exact .inr ⟨Bool.eq_false_iff.2 hend, body', hs, rfl⟩

/-- The two parts are the text, and the first one ends with the quote. -/
theorem closing_eq_some (h : closing q e s = some (body, rest)) :
    s = body ++ rest ∧ body.getLast? = some q := by
  induction s generalizing e body with
  | nil => cases h
  | cons c s ih =>
    rcases closing_cons h with ⟨rfl, -, rfl, rfl⟩ | ⟨-, body', hs, rfl⟩
    · exact ⟨rfl, rfl⟩
    · obtain ⟨rfl, hlast⟩ := ih hs
      exact ⟨rfl, by rw [List.getLast?_cons, hlast]; rfl⟩

/-- A string holds at least the quote that closes it. -/
theorem ne_nil_of_closing (h : closing q e s = some (body, rest)) : body ≠ [] := by
  rintro rfl
  cases (closing_eq_some h).2

/-- What a string holds does not depend on what follows it. -/
theorem closing_append (h : closing q e s = some (body, rest)) (x : List Char) :
    closing q e (body ++ x) = some (body, x) := by
  induction s generalizing e body with
  | nil => cases h
  | cons c s ih =>
    rcases closing_cons h with ⟨rfl, rfl, rfl, -⟩ | ⟨hopen, body', hs, rfl⟩
    · rw [List.singleton_append, closing, if_pos (by simp)]
    · rw [List.cons_append, closing, hopen, if_neg Bool.false_ne_true, ih hs]
      rfl

/-- What follows a string is no longer than what starts in it. -/
theorem length_closing (h : closing q e s = some (body, rest)) : rest.length ≤ s.length := by
  rw [(closing_eq_some h).1, List.length_append]
  omega

/-- What follows a pattern is no longer than what the pattern is looked for in. -/
theorem length_cutAt {pattern : List Char} (h : Text.cutAt pattern s.tail = some (body, rest)) :
    rest.length ≤ s.length := by
  have hlength := congrArg List.length (Text.cutAt_eq_some h)
  rw [List.length_tail, List.length_append] at hlength
  omega

/-- The pieces of a script, from left to right.  What never ends is one piece. -/
def pieces : List Char → List Piece
  | [] => []
  | c :: s =>
    if c = '/' ∧ s.head? = some '/' then
      have : (s.dropWhile (· != '\n')).length ≤ s.length := (List.dropWhile_sublist _).length_le
      .comment (c :: s.takeWhile (· != '\n')) :: pieces (s.dropWhile (· != '\n'))
    else if c = '/' ∧ s.head? = some '*' then
      match h : Text.cutAt ['*', '/'] s.tail with
      | some (body, rest) =>
        have : rest.length ≤ s.length := length_cutAt h
        .comment (c :: '*' :: body ++ ['*', '/']) :: pieces rest
      | none => [.comment (c :: s)]
    else if isQuote c then
      match h : closing c false s with
      | some (body, rest) =>
        have : rest.length ≤ s.length := length_closing h
        .literal (c :: body) :: pieces rest
      | none => [.literal (c :: s)]
    else .char c :: pieces s
termination_by s => s.length

/-- **A script is its pieces.** -/
theorem flatMap_text_pieces (s : List Char) : (pieces s).flatMap Piece.text = s := by
  fun_induction pieces s with
  | case1 => rfl
  | case2 c s _ _ ih =>
    rw [List.flatMap_cons, ih, Piece.text, List.cons_append, List.takeWhile_append_dropWhile]
  | case3 c s _ hopen body rest hcut _ ih =>
    obtain ⟨s, rfl⟩ := List.head?_eq_some_iff.1 hopen.2
    obtain rfl : s = body ++ ['*', '/'] ++ rest := Text.cutAt_eq_some hcut
    rw [List.flatMap_cons, ih, Piece.text]
    simp
  | case5 c s _ _ _ body rest hbody _ ih =>
    obtain ⟨rfl, -⟩ := closing_eq_some hbody
    rw [List.flatMap_cons, ih, Piece.text, List.cons_append]
  | case7 c s _ _ _ ih => rw [List.flatMap_cons, ih, Piece.text, List.singleton_append]
  | case4 | case6 => exact List.flatMap_singleton _ _

/-- A quote is no slash. -/
theorem ne_slash_of_isQuote (hq : isQuote q = true) : q ≠ '/' := by
  rintro rfl
  cases hq

/-- A quote whose string ends starts a literal. -/
theorem pieces_literal (hq : isQuote q = true) (h : closing q false s = some (body, rest)) :
    pieces (q :: s) = .literal (q :: body) :: pieces rest := by
  have hslash : q ≠ '/' := ne_slash_of_isQuote hq
  rw [pieces, if_neg fun h => hslash h.1, if_neg fun h => hslash h.1, if_pos hq]
  split
  · next heq =>
    rw [h] at heq
    obtain ⟨rfl, rfl⟩ := Prod.mk.inj (Option.some.inj heq)
    rfl
  · next heq =>
    rw [h] at heq
    cases heq

/-- The character neither opens a string nor, with what follows it, a comment. -/
def Single (c : Char) (s : List Char) : Prop :=
  isQuote c = false ∧ (c = '/' → OpensNone s)

/-- A character that is alone is a piece of its own. -/
theorem pieces_char (h : Single c s) : pieces (c :: s) = .char c :: pieces s := by
  obtain ⟨hquote, hslash⟩ := h
  rw [pieces, if_neg, if_neg, hquote]
  · rfl
  · rintro ⟨rfl, hs⟩
    exact (hslash rfl _ hs).1 rfl
  · rintro ⟨rfl, hs⟩
    exact (hslash rfl _ hs).2 rfl

/-! ### What is kept of the pieces -/

/-- A string with its opening quote, up to and with the quote that closes it, and if it is not in
backticks, with no blank in it that stands at the end of a line. -/
structure Quoted (q : Char) (body : List Char) : Prop where
  quote : isQuote q = true
  closed : closing q false body = some (body, [])
  settled : q ≠ '\x60' → settle body = body

/-- The text is what is kept of the pieces: all but the comments. -/
inductive Kept : List Piece → List Char → Prop
  | nil : Kept [] []
  | comment (text : List Char) {ps : List Piece} {t : List Char} :
    Kept ps t → Kept (.comment text :: ps) t
  | literal {q : Char} {body : List Char} {ps : List Piece} {t : List Char} :
    Quoted q body → Kept ps t → Kept (.literal (q :: body) :: ps) (q :: body ++ t)
  | char {c : Char} {ps : List Piece} {t : List Char} :
    Single c t → Kept ps t → Kept (.char c :: ps) (c :: t)

/-- A line comment ends before the line feed. -/
theorem strip_line (s : List Char) : strip .line s = strip .code (s.dropWhile (· != '\n')) := by
  induction s with
  | nil => rfl
  | cons c s ih =>
    by_cases hc : c = '\n'
    · subst hc
      rfl
    · rw [strip, if_neg hc, ih, List.dropWhile_cons_of_pos (by simpa using hc)]

/-- A block comment ends with the first `*/`. -/
theorem strip_block (h : strip .block s = .ok t) :
    ∃ body rest, Text.cutAt ['*', '/'] s = some (body, rest) ∧ strip .code rest = .ok t := by
  induction s with
  | nil => cases h
  | cons c s ih =>
    by_cases hclosed : c = '*' ∧ s.head? = some '/'
    · obtain ⟨rfl, hs⟩ := hclosed
      obtain ⟨rest, rfl⟩ := List.head?_eq_some_iff.1 hs
      exact ⟨[], rest, rfl, h⟩
    · have hafter : Text.after? ['*', '/'] (c :: s) = none := by
        refine Option.eq_none_iff_forall_ne_some.2 fun rest hrest => hclosed ?_
        obtain ⟨rfl, rfl⟩ := List.cons.inj (Text.after?_eq_some_iff.1 hrest)
        exact ⟨rfl, rfl⟩
      have hs : strip .block s = .ok t := by
        rw [strip] at h
        split_ifs at h with hc
        · -- a star that no slash follows is one like any other character
          rcases s with _ | ⟨d, s⟩
          · cases h
          · rw [strip, if_neg fun hd => hclosed ⟨hc, congrArg some hd⟩] at h
            rw [strip]
            exact h
        · exact h
      obtain ⟨body, rest, hcut, hrest⟩ := ih hs
      refine ⟨c :: body, rest, ?_, hrest⟩
      rw [Text.cutAt, hafter, hcut]
      rfl

/-- The place in a string, behind a backslash or not. -/
def inside (q : Char) : Bool → Place
  | true => .escape q
  | false => .string q

/-- In a string, a quote behind no backslash closes it, a line feed ends the reading unless it is in
backticks or behind a backslash, and anything else is kept. -/
theorem strip_inside (hq : isQuote q = true) (e : Bool) (c : Char) (s : List Char) :
    strip (inside q e) (c :: s) =
      if !e && c == q then (strip .code s).map (c :: ·)
      else if !e && c == '\n' && q != '\x60' then .error .unterminatedString
      else (strip (inside q (!e && c == '\\')) s).map (c :: ·) := by
  have hslash : '\\' ≠ q := by
    rintro rfl
    cases hq
  cases e
  · rw [inside, strip]
    by_cases hc : c = '\\'
    · subst hc
      simp [inside, hslash]
    · have hfalse : (c == '\\') = false := beq_false_of_ne hc
      by_cases hend : c = q
      · subst hend
        simp [hc]
      · simp [inside, hc, hend, hfalse]
  · rfl

/-- A string that is accepted ends, and unless it is in backticks, each line feed in it is behind a
backslash. -/
theorem strip_string (hq : isQuote q = true) (h : strip (inside q e) s = .ok t) :
    ∃ body rest t', closing q e s = some (body, rest) ∧ strip .code rest = .ok t' ∧
      t = body ++ t' ∧
      (q ≠ '\x60' → settle body = body ∧ (e = false → body.head? ≠ some '\n')) := by
  induction s generalizing e t with
  | nil => cases e <;> cases h
  | cons c s ih =>
    rw [strip_inside hq] at h
    split_ifs at h with hend hfeed
    · obtain ⟨t', ht', rfl⟩ := map_eq_ok.1 h
      obtain rfl : c = q := beq_iff_eq.1 (Bool.and_eq_true_iff.1 hend).2
      refine ⟨[c], s, t', by rw [closing, if_pos hend], ht', rfl, fun _ => ⟨?_, fun _ hhead => ?_⟩⟩
      · rw [settle_cons (isBlank_of_isQuote hq), settle]
      · rw [Option.some.inj hhead] at hq
        cases hq
    · obtain ⟨t, ht, rfl⟩ := map_eq_ok.1 h
      obtain ⟨body, rest, t', hs, hrest, rfl, hsettled⟩ := ih ht
      refine ⟨c :: body, rest, t', by rw [closing, if_neg hend, hs]; rfl, hrest, rfl,
        fun hback => ?_⟩
      obtain ⟨hbody, hhead⟩ := hsettled hback
      refine ⟨?_, fun he hc => hfeed ?_⟩
      · -- a blank in front of a line feed would stand behind a backslash
        rw [settle, hbody, if_neg]
        intro hdropped
        obtain ⟨hblank, hend⟩ := Bool.and_eq_true_iff.1 hdropped
        rcases atEnd_iff.1 hend with rfl | ⟨r, rfl⟩
        · exact ne_nil_of_closing hs rfl
        · refine hhead ?_ rfl
          rw [beq_false_of_ne (ne_of_isBlank hblank rfl), Bool.and_false]
      · rw [he, Option.some.inj hc]
        simpa using hback

/-- What is kept starts like the script, unless a slash does. -/
theorem head?_strip (h : strip .code s = .ok t) (hs : s.head? ≠ some '/') : t.head? = s.head? := by
  rcases s with _ | ⟨c, s⟩
  · cases h
    rfl
  · rw [strip_code fun hc => hs (congrArg some hc)] at h
    obtain ⟨t', -, rfl⟩ := map_eq_ok.1 h
    rfl

/-- **Stripping keeps all pieces but the comments.** -/
theorem kept_of_strip (h : strip .code s = .ok t) : Kept (pieces s) t := by
  fun_induction pieces s generalizing t with
  | case1 =>
    cases h
    exact .nil
  | case2 c s hopen _ ih =>
    obtain ⟨rfl, hs⟩ := hopen
    obtain ⟨rest, rfl⟩ := List.head?_eq_some_iff.1 hs
    refine .comment _ (ih ?_)
    rw [List.dropWhile_cons_of_pos (by decide), ← strip_line]
    exact h
  | case3 c s hline hopen body rest hcut _ ih =>
    obtain ⟨rfl, hs⟩ := hopen
    obtain ⟨s, rfl⟩ := List.head?_eq_some_iff.1 hs
    obtain ⟨_, _, hcut', hrest⟩ := strip_block h
    obtain ⟨rfl, rfl⟩ := Prod.mk.inj (Option.some.inj (hcut'.symm.trans hcut))
    exact .comment _ (ih hrest)
  | case4 c s hline hopen hcut =>
    -- a comment that does not end is not accepted
    obtain ⟨rfl, hs⟩ := hopen
    obtain ⟨s, rfl⟩ := List.head?_eq_some_iff.1 hs
    obtain ⟨_, _, hcut', -⟩ := strip_block h
    cases hcut'.symm.trans hcut
  | case5 q s hline hblock hq body rest hbody _ ih =>
    rw [strip_code (ne_slash_of_isQuote hq), if_pos hq] at h
    obtain ⟨t, ht, rfl⟩ := map_eq_ok.1 h
    obtain ⟨_, _, t', hbody', hrest, rfl, hsettled⟩ := strip_string (e := false) hq ht
    obtain ⟨rfl, rfl⟩ := Prod.mk.inj (Option.some.inj (hbody'.symm.trans hbody))
    have hclosed := closing_append hbody []
    rw [List.append_nil] at hclosed
    exact .literal ⟨hq, hclosed, fun hback => (hsettled hback).1⟩ (ih hrest)
  | case6 q s hline hblock hq hbody =>
    -- nor is a string
    rw [strip_code (ne_slash_of_isQuote hq), if_pos hq] at h
    obtain ⟨t, ht, rfl⟩ := map_eq_ok.1 h
    obtain ⟨_, _, _, hbody', -⟩ := strip_string (e := false) hq ht
    cases hbody'.symm.trans hbody
  | case7 c s hline hblock hq ih =>
    have hsingle : c = '/' → OpensNone s := fun hc d hd =>
      ⟨fun hstar => hblock ⟨hc, hstar ▸ hd⟩, fun hslash => hline ⟨hc, hslash ▸ hd⟩⟩
    have hread : strip .code (c :: s) = (strip .code s).map (c :: ·) := by
      by_cases hc : c = '/'
      · rw [hc, strip, if_pos rfl, strip_slash (hsingle hc)]
      · rw [strip_code hc, if_neg hq]
    rw [hread] at h
    obtain ⟨t, ht, rfl⟩ := map_eq_ok.1 h
    refine .char ⟨Bool.eq_false_iff.2 hq, fun hc d hd => ?_⟩ (ih ht)
    rw [head?_strip ht fun hs => (hsingle hc _ hs).2 rfl] at hd
    exact hsingle hc d hd

end Script
end HtmlCompose
