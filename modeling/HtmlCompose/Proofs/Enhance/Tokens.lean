/-
# The tokens of a compiled script

The tokens of a script are its strings, as they stand there, and its words: the longest runs of
characters that are not blank, with no string and no comment in them (`tokens`).

Compiling reads them as if the comments were not there, and tidies the lines of the strings
(`tokens_compile`).  So it keeps the tokens just if two things do not happen:

* a comment, or a row of comments, has a character that is not blank right before and right behind
  it: the two words become one (`joinsWords`);
* a string in backticks has a blank at a line end or a blank line in it: the string is changed.
-/
import HtmlCompose.Proofs.Enhance.Pieces

namespace HtmlCompose
namespace Script

/-- A token of a script. -/
inductive Token where
  | literal (text : List Char)
  | word (text : List Char)
deriving DecidableEq, Repr

namespace Token

/-- The string that the token is. -/
def literal? : Token → Option (List Char)
  | literal text => some text
  | _ => none

/-- The token, the lines of a string tidied. -/
def tidied : Token → Token
  | literal text => literal (tidyLines text)
  | word text => word text

end Token

/-- The word that characters make up, if there are any. -/
def wordOf (w : List Char) : List Token := if w = [] then [] else [.word w]

/-- The tokens of pieces behind the characters of a word that has not ended. -/
def gather (w : List Char) : List Piece → List Token
  | [] => wordOf w
  | .literal text :: ps => wordOf w ++ .literal text :: gather [] ps
  | .comment _ :: ps => wordOf w ++ gather [] ps
  | .char c :: ps => if Text.isBlank c then wordOf w ++ gather [] ps else gather (w ++ [c]) ps

/-- The strings and the words of a script, from left to right. -/
def tokens (s : List Char) : List Token := gather [] (pieces s)

/-- The strings of a script, from left to right. -/
def literals (s : List Char) : List (List Char) := (pieces s).filterMap Piece.literal?

/-- The pieces that are no comments. -/
def withoutComments (ps : List Piece) : List Piece := ps.filter fun p => !p.isComment

@[simp] theorem withoutComments_literal (text : List Char) (ps : List Piece) :
    withoutComments (.literal text :: ps) = .literal text :: withoutComments ps := rfl

@[simp] theorem withoutComments_comment (text : List Char) (ps : List Piece) :
    withoutComments (.comment text :: ps) = withoutComments ps := rfl

@[simp] theorem withoutComments_char (c : Char) (ps : List Piece) :
    withoutComments (.char c :: ps) = .char c :: withoutComments ps := rfl

/-- The tokens of a script if a word went on behind a comment. -/
def joined (s : List Char) : List Token := gather [] (withoutComments (pieces s))

/-- A word begins here, or behind the comments that stand here. -/
def startsWord : List Piece → Bool
  | .char c :: _ => !Text.isBlank c
  | .comment _ :: ps => startsWord ps
  | _ => false

/-- Comments stand here, and a word begins behind them. -/
def startsBehindComment (ps : List Piece) : Bool := ps.head?.any Piece.isComment && startsWord ps

/-- Somewhere nothing but comments stands between two words. -/
def joinsWords : List Piece → Bool
  | [] => false
  | .char c :: ps => (!Text.isBlank c && startsBehindComment ps) || joinsWords ps
  | .literal _ :: ps | .comment _ :: ps => joinsWords ps

variable {q c : Char} {e : Bool} {s t x body rest text w : List Char} {ps : List Piece}

/-! ### Settled pieces -/

/-- What stands before a character that is not blank is settled whatever follows. -/
theorem exists_settle_append (hq : Text.isBlank q = false) (s : List Char) :
    ∃ s', ∀ x, settle (s ++ q :: x) = s' ++ q :: settle x := by
  induction s with
  | nil => exact ⟨[], settle_cons hq⟩
  | cons c s ih =>
    obtain ⟨s', hs⟩ := ih
    have hend : ∀ x, atEnd (s' ++ q :: x) = atEnd (s' ++ [q]) := by
      intro x
      rcases s' with _ | ⟨d, s'⟩ <;> rfl
    refine ⟨if Text.isBlank c && atEnd (s' ++ [q]) then s' else c :: s', fun x => ?_⟩
    rw [List.cons_append, settle, hs, hend]
    split_ifs <;> rfl

/-- What stands behind a character that is not blank is settled by itself. -/
theorem settle_append (hlast : s.getLast? = some q) (hq : Text.isBlank q = false)
    (x : List Char) : settle (s ++ x) = settle s ++ settle x := by
  obtain ⟨front, rfl⟩ := List.getLast?_eq_some_iff.1 hlast
  obtain ⟨s', hs⟩ := exists_settle_append hq front
  rw [List.append_assoc, List.singleton_append, hs, hs]
  simp [settle]

/-- The lines of a text that does not start with a blank are tidied by settling what follows. -/
theorem tidyLines_cons (hc : Text.isBlank c = false) (s : List Char) :
    tidyLines (c :: s) = c :: settle s := by
  have hfeed : c ≠ '\n' := (ne_of_isBlank rfl hc).symm
  have hs := settle_lineFeed (c :: s)
  rw [settle, settle_cons hc, atEnd, List.head?_cons, Option.all_some, beq_false_of_ne hfeed,
    Bool.and_false, if_neg Bool.false_ne_true] at hs
  split_ifs at hs
  exact (List.cons.inj hs).2.symm

/-- A line feed in a string is like any other character, be it behind a backslash or not. -/
theorem closing_lineFeed (hq : isQuote q = true) (e : Bool) (s : List Char) :
    closing q e ('\n' :: s) = (closing q false s).map fun (body, rest) => ('\n' :: body, rest) := by
  have hfeed : ('\n' == q) = false := beq_false_of_ne (ne_of_isBlank rfl (isBlank_of_isQuote hq))
  rw [closing, hfeed, Bool.and_false, if_neg Bool.false_ne_true]
  rw [show ('\n' == '\\') = false from rfl, Bool.and_false]

/-- A string that has been settled ends with the same quote. -/
theorem closing_settle (hq : isQuote q = true) (h : closing q e s = some (body, rest))
    (x : List Char) : closing q e (settle body ++ x) = some (settle body, x) := by
  induction s generalizing e body with
  | nil => cases h
  | cons c s ih =>
    rcases closing_cons h with ⟨rfl, rfl, rfl, -⟩ | ⟨hopen, body', hs, rfl⟩
    · rw [settle_cons (isBlank_of_isQuote hq), settle, List.singleton_append, closing,
        if_pos (by simp)]
    · have hbody := ih hs
      rw [settle]
      split_ifs with hdropped
      · -- a blank that is left out may stand behind a backslash, but it is none
        obtain ⟨hblank, hend⟩ := Bool.and_eq_true_iff.1 hdropped
        rw [beq_false_of_ne (ne_of_isBlank hblank rfl), Bool.and_false] at hbody
        rcases atEnd_iff.1 hend with hnil | ⟨r, hfeed⟩
        · rw [hnil] at hbody
          cases ne_nil_of_closing hbody rfl
        · rw [hfeed, List.cons_append, closing_lineFeed hq] at hbody ⊢
          exact hbody
      · rw [List.cons_append, closing, hopen, if_neg Bool.false_ne_true, hbody]
        rfl

/-- A character alone stays alone before what has been settled. -/
theorem Single.settle (h : Single c s) : Single c (settle s) :=
  ⟨h.1, fun hc => (h.2 hc).settle⟩

/-- A line feed is a piece of its own. -/
theorem pieces_lineFeed (s : List Char) : pieces ('\n' :: s) = .char '\n' :: pieces s :=
  pieces_char ⟨rfl, fun h => absurd h (by decide)⟩

/-- A line feed ends a word. -/
theorem gather_lineFeed (w : List Char) (ps : List Piece) :
    gather w (.char '\n' :: ps) = wordOf w ++ gather [] ps := by
  rw [gather, if_pos (by rfl)]

/-- A word ends where its line does. -/
theorem gather_atEnd (h : atEnd x = true) (w : List Char) :
    gather w (pieces x) = wordOf w ++ gather [] (pieces x) := by
  rcases atEnd_iff.1 h with rfl | ⟨r, rfl⟩
  · rw [pieces, gather, gather]
    exact (List.append_nil _).symm
  · rw [pieces_lineFeed, gather_lineFeed, gather_lineFeed]
    rfl

/-- Words are tidy. -/
theorem map_tidied_wordOf (w : List Char) : (wordOf w).map Token.tidied = wordOf w := by
  rw [wordOf]
  split_ifs <;> rfl

/-- **What is kept of pieces has, once settled, the tokens of the pieces without comments**, the
lines of the strings tidied. -/
theorem gather_settle (h : Kept ps t) (w : List Char) :
    gather w (pieces (settle t)) = (gather w (withoutComments ps)).map Token.tidied := by
  induction h generalizing w with
  | nil =>
    rw [settle, pieces, withoutComments, List.filter_nil, gather, map_tidied_wordOf]
  | comment text _ ih => exact ih w
  | @literal q body ps t hquoted _ ih =>
    have hq := isBlank_of_isQuote hquoted.quote
    have hsettle : settle (q :: body ++ t) = q :: (settle body ++ settle t) := by
      rw [List.cons_append, settle_cons hq, settle_append (closing_eq_some hquoted.closed).2 hq]
    have hpieces := pieces_literal hquoted.quote
      (closing_settle hquoted.quote hquoted.closed (settle t))
    rw [hsettle, hpieces, withoutComments_literal, gather, gather, List.map_append, List.map_cons,
      map_tidied_wordOf, Token.tidied, tidyLines_cons hq, ih]
  | @char c ps t hsingle _ ih =>
    rw [withoutComments_char, gather, settle]
    split_ifs with hdropped hblank hblank
    · rw [gather_atEnd (Bool.and_eq_true_iff.1 hdropped).2, ih, List.map_append, map_tidied_wordOf]
    · exact absurd (Bool.and_eq_true_iff.1 hdropped).1 hblank
    · rw [pieces_char hsingle.settle, gather, if_pos hblank, ih, List.map_append, map_tidied_wordOf]
    · rw [pieces_char hsingle.settle, gather, if_neg hblank, ih]

/-- What is compiled has the tokens of the script without its comments. -/
theorem tokens_tidyLines (h : strip .code s = .ok t) :
    tokens (tidyLines t) = (joined s).map Token.tidied := by
  have hkept : Kept (.char '\n' :: pieces s) ('\n' :: t) :=
    .char ⟨rfl, fun h => absurd h (by decide)⟩ (kept_of_strip h)
  have hgather := gather_settle hkept []
  rw [withoutComments_char, gather_lineFeed, settle_lineFeed] at hgather
  refine Eq.trans ?_ hgather
  split_ifs with hnil
  · rw [hnil]
    rfl
  · rw [pieces_lineFeed, gather_lineFeed]
    rfl

/-! ### Words behind comments -/

/-- Characters make up a word. -/
theorem wordOf_of_ne_nil (h : w ≠ []) : wordOf w = [.word w] := if_neg h

/-- The first token behind the characters of a word begins with them. -/
theorem exists_gather (h : w ≠ []) (ps : List Piece) :
    ∃ more rest, gather w ps = .word (w ++ more) :: rest := by
  induction ps generalizing w with
  | nil => exact ⟨[], [], by rw [gather, wordOf_of_ne_nil h, List.append_nil]⟩
  | cons p ps ih =>
    have hends : ∀ rest, ∃ more rest', wordOf w ++ rest = .word (w ++ more) :: rest' :=
      fun rest => ⟨[], rest, by rw [wordOf_of_ne_nil h, List.append_nil]; rfl⟩
    cases p with
    | literal text => exact hends _
    | comment text => exact hends _
    | char c =>
      rw [gather]
      split_ifs
      · exact hends _
      · obtain ⟨more, rest, hmore⟩ := ih (w := w ++ [c]) (by simp)
        exact ⟨c :: more, rest, by rw [hmore]; simp⟩

/-- **Leaving out the comments keeps the tokens just if no words are joined.**  The first part is
about a word that may go on here, the second one about a word that a comment has ended. -/
theorem gather_withoutComments (ps : List Piece) :
    (∀ w, gather w (withoutComments ps) = gather w ps ↔
      (w ≠ [] → startsBehindComment ps = false) ∧ joinsWords ps = false) ∧
    ∀ w, w ≠ [] → (gather w (withoutComments ps) = wordOf w ++ gather [] ps ↔
      startsWord ps = false ∧ joinsWords ps = false) := by
  induction ps with
  | nil => simp [withoutComments, gather, startsBehindComment, startsWord, joinsWords, wordOf]
  | cons p ps ih =>
    obtain ⟨hgoes, hended⟩ := ih
    have hfresh : gather [] (withoutComments ps) = gather [] ps ↔ joinsWords ps = false := by
      simpa using hgoes []
    cases p with
    | literal text =>
      simp [gather, startsBehindComment, startsWord, joinsWords, Piece.isComment, hfresh, wordOf]
    | comment text =>
      refine ⟨fun w => ?_, hended⟩
      rw [withoutComments_comment, gather]
      by_cases hw : w = []
      · subst hw
        simpa [wordOf, joinsWords] using hfresh
      · simpa [hw, startsBehindComment, startsWord, joinsWords, Piece.isComment] using hended w hw
    | char c =>
      rcases hc : Text.isBlank c
      · refine ⟨fun w => ?_, fun w hw => ?_⟩
        · rw [withoutComments_char, gather, gather, hc, if_neg Bool.false_ne_true,
            if_neg Bool.false_ne_true, hgoes]
          simp [startsBehindComment, joinsWords, Piece.isComment, hc]
        · -- the word goes on in one case and has ended in the other
          obtain ⟨more, rest, hmore⟩ := exists_gather (w := w ++ [c]) (by simp) (withoutComments ps)
          rw [withoutComments_char, gather, if_neg (Bool.eq_false_iff.1 hc), hmore,
            wordOf_of_ne_nil hw]
          simp [startsWord, hc]
      · simp [gather, startsBehindComment, startsWord, joinsWords, Piece.isComment, hc, hfresh,
          wordOf]

/-! ### Strings -/

/-- A word is no string. -/
theorem filterMap_wordOf (w : List Char) : (wordOf w).filterMap Token.literal? = [] := by
  rw [wordOf]
  split_ifs <;> rfl

/-- The strings among the tokens are the strings among the pieces. -/
theorem filterMap_gather (w : List Char) (ps : List Piece) :
    (gather w ps).filterMap Token.literal? = ps.filterMap Piece.literal? := by
  induction ps generalizing w with
  | nil => exact filterMap_wordOf w
  | cons p ps ih =>
    cases p with
    | literal text =>
      have hpieces : (Piece.literal text :: ps).filterMap Piece.literal? =
          text :: ps.filterMap Piece.literal? := rfl
      rw [gather, List.filterMap_append, filterMap_wordOf, hpieces, ← ih []]
      rfl
    | comment text =>
      rw [gather, List.filterMap_append, filterMap_wordOf, List.filterMap_cons_none rfl, ih,
        List.nil_append]
    | char c =>
      rw [gather, List.filterMap_cons_none rfl]
      split_ifs
      · rw [List.filterMap_append, filterMap_wordOf, ih, List.nil_append]
      · exact ih _

/-- Leaving out the comments leaves the strings. -/
theorem filterMap_withoutComments (ps : List Piece) :
    (withoutComments ps).filterMap Piece.literal? = ps.filterMap Piece.literal? := by
  rw [withoutComments, List.filterMap_filter]
  refine List.filterMap_congr fun p _ => ?_
  cases p <;> rfl

/-- The strings among tidied tokens are those of before, tidied. -/
theorem filterMap_tidied (ts : List Token) :
    (ts.map Token.tidied).filterMap Token.literal? =
      (ts.filterMap Token.literal?).map tidyLines := by
  rw [List.filterMap_map, List.map_filterMap]
  refine List.filterMap_congr fun p _ => ?_
  cases p <;> rfl

/-- Tidying keeps tokens just if their strings are tidy. -/
theorem map_tidied_eq_self {ts : List Token} : ts.map Token.tidied = ts ↔
    ∀ text ∈ ts.filterMap Token.literal?, tidyLines text = text := by
  induction ts with
  | nil => simp
  | cons token ts ih => cases token <;> simp [Token.tidied, Token.literal?, ih]

/-- A string that is kept ends with the quote that it begins with. -/
theorem quoted_of_kept (h : Kept ps t) (hmem : text ∈ ps.filterMap Piece.literal?) :
    ∃ q body, text = q :: body ∧ Quoted q body := by
  induction h with
  | nil => cases hmem
  | comment _ _ ih => exact ih hmem
  | @literal q body ps _ hquoted _ ih =>
    rcases List.mem_cons.1 hmem with rfl | hmem
    · exact ⟨q, body, rfl, hquoted⟩
    · exact ih hmem
  | char _ _ ih => exact ih hmem

/-- Only strings in backticks can be untidy. -/
theorem tidyLines_of_kept (h : Kept ps t) (hmem : text ∈ ps.filterMap Piece.literal?)
    (hhead : text.head? ≠ some '\x60') : tidyLines text = text := by
  obtain ⟨q, body, rfl, hquoted⟩ := quoted_of_kept h hmem
  rw [tidyLines_cons (isBlank_of_isQuote hquoted.quote),
    hquoted.settled fun hback => hhead (congrArg some hback)]

/-- **What compiling does to the tokens of a script.**  The compiled script has the tokens that the
script would have if words went on behind comments, the lines of its strings tidied.  These are the
tokens of the script itself just if all its strings are tidy, as those not in backticks always are,
and nowhere nothing but comments stands between two words. -/
theorem tokens_compile {source output : String} (h : compile source = .ok output) :
    tokens output.toList = (joined source.toList).map Token.tidied ∧
      (tokens output.toList = tokens source.toList ↔
        (∀ text ∈ literals source.toList, tidyLines text = text) ∧
          joinsWords (pieces source.toList) = false) ∧
      ∀ text ∈ literals source.toList, text.head? ≠ some '\x60' → tidyLines text = text := by
  obtain ⟨t, ht, rfl⟩ := map_eq_ok.1 h
  have htokens : tokens (String.ofList (tidyLines t)).toList =
      (joined source.toList).map Token.tidied := by
    rw [String.toList_ofList]
    exact tokens_tidyLines ht
  have hliterals : (joined source.toList).filterMap Token.literal? = literals source.toList := by
    rw [joined, filterMap_gather, filterMap_withoutComments, literals]
  have hjoined : joined source.toList = tokens source.toList ↔
      joinsWords (pieces source.toList) = false := by
    rw [joined, tokens, (gather_withoutComments _).1]
    exact and_iff_right fun hnil => absurd rfl hnil
  refine ⟨htokens, ?_, fun text hmem hhead => tidyLines_of_kept (kept_of_strip ht) hmem hhead⟩
  rw [htokens, ← hliterals, ← map_tidied_eq_self, ← hjoined]
  constructor
  · intro heq
    -- the strings of the two sides are the same, so that all of them are tidy
    have hstrings := congrArg (List.filterMap Token.literal?) heq
    rw [filterMap_tidied, hliterals, tokens, filterMap_gather] at hstrings
    have htidy : (joined source.toList).map Token.tidied = joined source.toList := by
      rw [map_tidied_eq_self, hliterals]
      exact List.map_inj_left.1 (hstrings.trans (List.map_id _).symm)
    exact ⟨htidy, htidy ▸ heq⟩
  · rintro ⟨htidy, heq⟩
    rw [htidy, heq]

/-- Comments with a blank or a string on one side, comment marks in strings, and a string that goes
on over a line end. -/
def spacedScript : String := "let s = '/*' /* ' */+ `b\n` / 2;// '\n\n f(s) /* '*/ ;"

/-- Comments beside blanks and strings go without a token being lost or changed. -/
theorem tokens_compile_spaced :
    compile spacedScript = .ok "let s = '/*' + `b\n` / 2;\n f(s)  ;" ∧
      tokens "let s = '/*' + `b\n` / 2;\n f(s)  ;".toList = tokens spacedScript.toList := by
  have h : compile spacedScript = .ok "let s = '/*' + `b\n` / 2;\n f(s)  ;" := by decide +kernel
  have hliterals : literals spacedScript.toList = ["'/*'".toList, "`b\n`".toList] := by cbv
  have htidy : ∀ text ∈ literals spacedScript.toList, tidyLines text = text := by
    rw [hliterals]
    decide
  have hjoins : joinsWords (pieces spacedScript.toList) = false := by cbv
  exact ⟨h, (tokens_compile h).2.1.2 ⟨htidy, hjoins⟩⟩

/-- Both happen: a comment alone keeps two words apart, and a line in a string ends in a blank. -/
theorem tokens_not_kept :
    compile "return/**/x" = .ok "returnx" ∧
      tokens "return/**/x".toList = [.word "return".toList, .word "x".toList] ∧
      tokens "returnx".toList = [.word "returnx".toList] ∧
    compile "`a \n`" = .ok "`a\n`" ∧
      tokens "`a \n`".toList = [.literal "`a \n`".toList] ∧
      tokens "`a\n`".toList = [.literal "`a\n`".toList] := by
  refine ⟨by decide +kernel, ?_, ?_, by decide +kernel, ?_, ?_⟩ <;> cbv

end Script
end HtmlCompose
