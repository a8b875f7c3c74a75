/-
# Where and why reading stops

Only a comment and raw text that never end are faults, and a fault tells precisely where:
its span starts where the opening of the comment or the opening tag does, and reaches to
the end of the source.

The argument is that nothing before the fault depends on what stands behind it.  Comments,
tags, quotes and raw text all look ahead, up to the end of the source if they have to; but
a lexeme that has come to its end is the same lexeme with anything else behind it
(`Lexeme.next?_behind`), as long as texts and strays still have a `<` or nothing at all
behind them.  Raw text ends at the first closing tag of its element, which holds no second
`<` that the fault could start at (`rawBody?_behind`).

So reading up to the fault is one and the same run, with the rest of the source behind it,
with nothing, or with the rest and the terminator that is missing
(`stopsWithin_of_parseFrom`).  That the terminator ends what has been open is the other half:
no part of it together with what stands before it ends the comment, or the raw text, any
earlier.
-/
import HtmlCompose.Proofs.Markup.Parsed

namespace HtmlCompose
namespace Markup

/-! ### Lexemes that have come to their end -/

namespace Lexeme

/-- A lexeme that ends with a character of its own. -/
inductive Ended : Lexeme → Prop where
  | comment {body : List Char} : Text.occurs commentEnd body = false →
    Ended ⟨writeComment (String.ofList body), some (.comment (String.ofList body))⟩
  | doctype {s : List Char} : isDeclaration s = true →
    Ended ⟨s, some (.doctype (String.ofList s))⟩
  | closeTag {c : Char} {body : List Char} : c.isAlpha = true → '>' ∉ body →
    Ended ⟨'<' :: '/' :: c :: (body ++ ['>']),
      some (.closeTag (String.ofList (Text.trim (c :: body))))⟩
  | openTag {c : Char} {body : List Char} : c.isAlpha = true →
    tagBody none body = some (body, []) →
    Ended ⟨'<' :: c :: body, some (.openTag (String.ofList ('<' :: c :: body)))⟩

/-- A lexeme and what stands behind it. -/
inductive Cut : Lexeme → List Char → Prop where
  | ended {l : Lexeme} {rest : List Char} : l.Ended → Cut l rest
  | text {c : Char} {s rest : List Char} : (∀ d ∈ c :: s, d ≠ '<') →
    rest.head?.all (· == '<') = true → Cut ⟨c :: s, some (.text (String.ofList (c :: s)))⟩ rest
  | stray {rest : List Char} : next? ('<' :: rest) = some (⟨['<'], none⟩, rest) →
    Cut ⟨['<'], none⟩ rest
  | lostComment {rest : List Char} : Text.occurs commentEnd rest = false →
    Cut ⟨['<', '!', '-', '-'], none⟩ rest
  | lostTag {s : List Char} : (Lexeme.mk s none).isText = true → Cut ⟨s, none⟩ []

variable {s x q q' a b body rest : List Char} {c : Char}

/-- A tag that ends is the same tag with anything behind it. -/
theorem tagBody_behind {quote : Option Char} (h : tagBody quote s = some (a, b)) (r : List Char) :
    tagBody quote (a ++ r) = some (a, r) := by
  induction s generalizing quote a with
  | nil => cases quote <;> cases h
  | cons c s ih =>
    have hmap {quote' : Option Char} {a : List Char}
        (h : (tagBody quote' s).map (fun found => (c :: found.1, found.2)) = some (a, b)) :
        ∃ a', a = c :: a' ∧ tagBody quote' (a' ++ r) = some (a', r) := by
      obtain ⟨⟨a', b'⟩, htail, heq⟩ := Option.map_eq_some_iff.1 h
      obtain ⟨rfl, rfl⟩ := Prod.mk.inj heq
      exact ⟨a', rfl, ih htail⟩
    rcases quote with _ | quote <;> rw [tagBody] at h
    · split at h
      · rename_i hc
        obtain ⟨rfl, -⟩ := Prod.mk.inj (Option.some.inj h)
        rw [List.singleton_append, tagBody, if_pos hc]
      · rename_i hc
        split at h <;> rename_i hquote
        · obtain ⟨a', rfl, htail⟩ := hmap h
          rw [List.cons_append, tagBody, if_neg hc, if_pos hquote, htail]
          rfl
        · obtain ⟨a', rfl, htail⟩ := hmap h
          rw [List.cons_append, tagBody, if_neg hc, if_neg hquote, htail]
          rfl
    · obtain ⟨a', rfl, htail⟩ := hmap h
      rw [List.cons_append, tagBody, htail]
      rfl

/-- No letter is a `!`. -/
theorem ne_bang_of_isAlpha (hc : c.isAlpha = true) : c ≠ '!' := by
  rintro rfl
  cases hc

/-- What follows a `<` that starts nothing starts nothing by itself. -/
theorem isStray_of_next? (h : next? ('<' :: (x ++ q)) = some (⟨['<'], none⟩, x ++ q))
    (hq : q.head? = some '<') : isStray x = true := by
  obtain ⟨q, rfl⟩ := List.head?_eq_some_iff.1 hq
  unfold isStray
  split
  · rw [List.cons_append, List.cons_append, List.cons_append, next?] at h
    split at h <;> simp at h
  · rfl
  · rename_i y _ hdash
    obtain ⟨d, r, hy, hd⟩ : ∃ d r, y ++ '<' :: q = d :: r ∧ d ≠ '-' := by
      rcases y with _ | ⟨d, y⟩
      · exact ⟨'<', q, rfl, by decide⟩
      · exact ⟨d, _, rfl, fun heq => hdash y (by rw [heq])⟩
    rw [List.cons_append, hy, next?, if_neg hd] at h
    · split at h <;> simp at h
    · exact fun _ hr => absurd hr hd
  · rename_i d y
    rw [List.cons_append, List.cons_append, next?] at h
    split at h
    · split at h <;> simp at h
    · rename_i hd
      rw [Bool.eq_false_of_not_eq_true hd]
      rfl
  · rename_i d y _ _ hbang hslash
    rw [Bool.not_eq_true']
    by_contra hd
    rw [List.cons_append, next?_letter (Bool.eq_true_of_not_eq_false hd)] at h
    split at h <;> simp at h
  · rfl

/-- **What a lexeme is and what can stand behind it.** -/
theorem cut_of_next? {l : Lexeme} (h : next? s = some (l, rest)) : Cut l rest := by
  have hstray (hs : s = '<' :: rest) (hl : l = ⟨['<'], none⟩) : Cut l rest := by
    subst hs hl
    exact .stray h
  unfold next? at h
  split at h
  · cases h
  · split at h <;> obtain ⟨rfl, rfl⟩ := Prod.mk.inj (Option.some.inj h) <;> rename_i hcut
    · simpa [writeComment] using
        Cut.ended (.comment (Text.occurs_of_cutAt (List.cons_ne_nil _ _) hcut))
    · exact .lostComment (Text.occurs_of_cutAt_eq_none hcut)
  · split at h
    · obtain ⟨rfl, rfl⟩ := Prod.mk.inj (Option.some.inj h)
      exact hstray rfl rfl
    · rename_i hdash
      split at h <;> obtain ⟨rfl, rfl⟩ := Prod.mk.inj (Option.some.inj h) <;> rename_i hcut
      · have hbody := Text.occurs_singleton.1 (Text.occurs_of_cutAt (List.cons_ne_nil _ _) hcut)
        exact .ended (.doctype (by simp [isDeclaration, hdash, hbody]))
      · exact .lostTag (by simp [isText, Text.after?, Ne.symm hdash])
  · split at h
    · rename_i hc
      split at h <;> obtain ⟨rfl, rfl⟩ := Prod.mk.inj (Option.some.inj h) <;> rename_i hcut
      · have hbody := Text.occurs_singleton.1 (Text.occurs_of_cutAt (List.cons_ne_nil _ _) hcut)
        exact .ended (.closeTag hc hbody)
      · exact .lostTag rfl
    · obtain ⟨rfl, rfl⟩ := Prod.mk.inj (Option.some.inj h)
      exact hstray rfl rfl
  · split at h
    · rename_i hc
      split at h <;> obtain ⟨rfl, rfl⟩ := Prod.mk.inj (Option.some.inj h) <;> rename_i hbody
      · exact .ended (.openTag hc (by simpa using tagBody_behind hbody []))
      · have hbang : '!' ≠ _ := (ne_bang_of_isAlpha hc).symm
        exact .lostTag (by simp [isText, Text.after?, hbang])
    · obtain ⟨rfl, rfl⟩ := Prod.mk.inj (Option.some.inj h)
      exact hstray rfl rfl
  · obtain ⟨rfl, rfl⟩ := Prod.mk.inj (Option.some.inj h)
    exact .lostTag rfl
  · rename_i c cs _ _ _ hopen hend
    obtain ⟨rfl, rfl⟩ := Prod.mk.inj (Option.some.inj h)
    have hc : c ≠ '<' := by
      rintro rfl
      rcases cs with _ | ⟨d, cs⟩
      · exact hend rfl rfl
      · exact hopen d cs rfl rfl
    refine .text (List.forall_mem_cons.2 ⟨hc, fun d hd => ?_⟩) ?_
    · simpa using List.mem_takeWhile_imp (p := (· != '<')) hd
    · have hfirst := List.head?_dropWhile_not (· != '<') cs
      rcases hdrop : cs.dropWhile (· != '<') with _ | ⟨d, rest⟩
      · rfl
      · rw [hdrop] at hfirst
        simpa using hfirst

/-- A lexeme that ends with a character of its own is read whatever stands behind it. -/
theorem Ended.next? {l : Lexeme} (h : l.Ended) (r : List Char) :
    next? (l.text ++ r) = some (l, r) := by
  cases h with
  | comment hbody => exact next?_comment hbody r
  | doctype hs => exact next?_doctype hs r
  | @closeTag c body hc hbody =>
    simp only [List.cons_append, List.append_assoc, List.nil_append]
    rw [Lexeme.next?, if_pos hc, Text.cutAt_singleton hbody]
    rfl
  | @openTag c body hc hbody =>
    simp only [List.cons_append]
    rw [next?_letter hc, tagBody_append hbody, List.nil_append]

/-- **What a lexeme is does not depend on what stands behind it**, if that is a `<` or nothing at
all, and if the lexeme does not open a comment. -/
theorem next?_behind {l : Lexeme} (h : next? (l.text ++ (x ++ q)) = some (l, x ++ q))
    (hl : l.token = none → l.isText = true) (hq : q.head? = some '<')
    (hq' : q'.head?.all (· == '<') = true) : next? (l.text ++ (x ++ q')) = some (l, x ++ q') := by
  generalize hrest : x ++ q = rest at h
  cases cut_of_next? h with
  | ended hended => exact hended.next? _
  | @text c s _ hs hbehind =>
    have hplain : ∀ d ∈ s, (d != '<') = true := fun d hd => by
      simpa using hs d (List.mem_cons_of_mem c hd)
    have hbehind' : (x ++ q').head?.all (· == '<') = true := by
      rcases x with _ | ⟨d, x⟩
      · exact hq'
      · rw [← hrest] at hbehind
        exact hbehind
    have hspan := span_append (s := s) hbehind'
    rw [List.takeWhile_eq_self_iff.2 hplain, List.dropWhile_eq_nil_iff.2 hplain] at hspan
    rw [List.cons_append, next?_text (hs c List.mem_cons_self), hspan.1, hspan.2]
    rfl
  | stray hstray =>
    rw [← hrest] at hstray
    exact next?_stray (s := x) (isStray_of_next? hstray hq) hq'
  | lostComment => cases hl rfl
  | lostTag =>
    rw [(List.append_eq_nil_iff.1 hrest).2] at hq
    cases hq

/-- What is read as an opening tag is one with anything behind it. -/
theorem next?_openTag {raw : String} (h : next? s = some (⟨x, some (.openTag raw)⟩, rest)) :
    raw.toList = x ∧ ∀ r, next? (x ++ r) = some (⟨x, some (.openTag raw)⟩, r) := by
  cases cut_of_next? h with
  | ended hended =>
    refine ⟨?_, hended.next?⟩
    cases hended
    exact String.toList_ofList

/-- A lexeme without a token that opens a comment is one whose comment never ends. -/
theorem eq_of_opens (h : next? s = some (⟨x, none⟩, rest))
    (hx : (Text.after? ['<', '!', '-', '-'] x).isSome = true) :
    s = '<' :: '!' :: '-' :: '-' :: rest ∧ Text.occurs commentEnd rest = false := by
  have hs := (next?_eq_some h).1
  cases cut_of_next? h with
  | ended hended => cases hended
  | stray => cases hx
  | lostComment hrest => exact ⟨hs, hrest⟩
  | lostTag htext =>
    rw [isText, Option.isNone_iff_eq_none] at htext
    rw [htext] at hx
    cases hx

end Lexeme

/-! ### Raw text that has come to its end -/

section RawText

variable {name s body rest x q q' p : List Char}

/-- A text that starts with a pattern without `<` does so before any `<`. -/
theorem startsFolded_of_append (hp : '<' ∉ p) (h : Text.startsFolded p (x ++ q) = true)
    (hq : q.head? = some '<') : Text.startsFolded p x = true := by
  induction p generalizing x with
  | nil => rfl
  | cons a p ih =>
    rw [List.mem_cons, not_or] at hp
    rcases x with _ | ⟨c, x⟩
    · obtain ⟨q, rfl⟩ := List.head?_eq_some_iff.1 hq
      rw [List.nil_append, Text.startsFolded, Bool.and_eq_true, beq_iff_eq] at h
      exact absurd h.1.symm hp.1
    · rw [List.cons_append, Text.startsFolded, Bool.and_eq_true] at h
      rw [Text.startsFolded, h.1, ih hp.2 h.2]
      rfl

/-- A beginning found without regard to case is found with more text behind. -/
theorem startsFolded_append (h : Text.startsFolded p s = true) (r : List Char) :
    Text.startsFolded p (s ++ r) = true := by
  induction p generalizing s with
  | nil => rfl
  | cons a p ih =>
    rcases s with _ | ⟨c, s⟩
    · cases h
    · rw [Text.startsFolded, Bool.and_eq_true] at h
      rw [List.cons_append, Text.startsFolded, h.1, ih h.2]
      rfl

/-- Behind raw text stands the start of a closing tag. -/
theorem startsFolded_of_rawBody? (h : rawBody? name s = some (body, rest)) :
    Text.startsFolded ('<' :: '/' :: Text.foldCase name) rest = true := by
  induction s generalizing body with
  | nil => cases h
  | cons c s ih =>
    rw [rawBody?] at h
    split at h
    · rename_i hstarts
      obtain ⟨rfl, rfl⟩ := Prod.mk.inj (Option.some.inj h)
      exact hstarts
    · obtain ⟨⟨body', rest'⟩, htail, heq⟩ := Option.map_eq_some_iff.1 h
      obtain ⟨rfl, rfl⟩ := Prod.mk.inj heq
      exact ih htail

/-- Raw text up to its closing tag holds no closing tag of its element. -/
theorem holdsCloser_of_rawBody? {name : String}
    (h : rawBody? name.toList s = some (body, rest)) : holdsCloser name body = false := by
  induction s generalizing body with
  | nil => cases h
  | cons c s ih =>
    rw [rawBody?] at h
    split at h
    · obtain ⟨rfl, rfl⟩ := Prod.mk.inj (Option.some.inj h)
      rfl
    · rename_i hstarts
      obtain ⟨⟨body', rest'⟩, htail, heq⟩ := Option.map_eq_some_iff.1 h
      obtain ⟨rfl, rfl⟩ := Prod.mk.inj heq
      rw [holdsCloser_cons, ih htail, Bool.or_false, Bool.eq_false_iff]
      intro hbody
      rw [rawBody?_eq_some htail, ← List.cons_append] at hstarts
      exact hstarts (startsFolded_append hbody _)

/-- Raw text that never ends holds no closing tag of its element. -/
theorem holdsCloser_of_rawBody?_eq_none {name : String} (h : rawBody? name.toList s = none) :
    holdsCloser name s = false := by
  induction s with
  | nil => rfl
  | cons c s ih =>
    rw [rawBody?] at h
    split at h
    · cases h
    · rename_i hstarts
      rw [holdsCloser_cons, ih (Option.map_eq_none_iff.1 h), Bool.or_false]
      exact Bool.eq_false_of_not_eq_true hstarts

/-- **Where raw text ends does not depend on what stands behind it**, if that is something that
starts with a `<` but with no closing tag. -/
theorem rawBody?_behind {name : String} (hraw : isRawText name = true)
    (h : rawBody? name.toList (body ++ (x ++ q)) = some (body, x ++ q))
    (hq : q.head? = some '<') (hslash : q.tail.head? ≠ some '/') (q' : List Char) :
    rawBody? name.toList (body ++ (x ++ q')) = some (body, x ++ q') := by
  refine rawBody?_append hraw (holdsCloser_of_rawBody? h) ?_
  have hstarts := startsFolded_of_rawBody? h
  rcases x with _ | ⟨c, x⟩
  · obtain ⟨q, rfl⟩ := List.head?_eq_some_iff.1 hq
    rcases q with _ | ⟨d, q⟩
    · cases hstarts
    · simp only [List.nil_append, Text.startsFolded, Bool.and_eq_true, beq_iff_eq] at hstarts
      exact absurd (congrArg some (Text.eq_of_toLower_eq rfl hstarts.2.1.symm)) hslash
  · rw [List.cons_append, Text.startsFolded, Bool.and_eq_true] at hstarts ⊢
    have hopen : '<' ∉ '/' :: Text.foldCase name.toList := by
      rw [List.mem_cons, not_or]
      exact ⟨by decide, lt_not_mem_of_isRawText hraw⟩
    exact ⟨hstarts.1, startsFolded_append (startsFolded_of_append hopen hstarts.2 hq) q'⟩

end RawText

/-! ### Where reading stops -/

namespace Fault

/-- What the piece at fault starts with. -/
def opening : Fault → String
  | unterminatedComment _ => "<!--"
  | unterminatedRawText tag _ => "<" ++ tag

/-- What the piece at fault has not come to. -/
def terminator : Fault → String
  | unterminatedComment _ => "-->"
  | unterminatedRawText tag _ => "</" ++ tag ++ ">"

end Fault

/-- Reading stops with a fault at the very start of what is left of a source. -/
inductive Stops (o : Nat) : List Char → Fault → Prop where
  | comment {rest : List Char} : Text.occurs commentEnd rest = false →
    Stops o ('<' :: '!' :: '-' :: '-' :: rest)
      (.unterminatedComment (spanToEnd o ('<' :: '!' :: '-' :: '-' :: rest)))
  | rawText {s x rest : List Char} {raw : String} :
    Lexeme.next? s = some (⟨x, some (.openTag raw)⟩, rest) →
    (isVoid (OpenTag.ofRaw raw).name || (OpenTag.ofRaw raw).selfClosing) = false →
    isRawText (OpenTag.ofRaw raw).name = true →
    holdsCloser (OpenTag.ofRaw raw).name rest = false →
    Stops o s (.unterminatedRawText (OpenTag.ofRaw raw).name (spanToEnd o s))

namespace Stops

variable {o : Nat} {s : List Char} {fault : Fault}

/-- A fault spans from where reading stops to the end. -/
theorem span_eq (h : Stops o s fault) : fault.span = spanToEnd o s := by
  cases h <;> rfl

/-- What reading stops at starts with the opening that the fault names. -/
theorem exists_opening (h : Stops o s fault) :
    ∃ rest : String, s = (fault.opening ++ rest).toList := by
  cases h with
  | @comment rest => exact ⟨String.ofList rest, by simp [Fault.opening]⟩
  | @rawText s x rest raw hnext =>
    obtain ⟨c, body, hraw, hc⟩ := Lexeme.next?_formed hnext _ rfl
    have hname := OpenTag.name_ofRaw hraw hc
    have hbody := List.takeWhile_append_dropWhile (p := fun c => !OpenTag.isGap c) (l := body)
    refine ⟨String.ofList (body.dropWhile (fun c => !OpenTag.isGap c) ++ ['>'] ++ rest), ?_⟩
    rw [(Lexeme.next?_eq_some hnext).1, ← (Lexeme.next?_openTag hnext).1, hraw, Fault.opening,
      String.toList_append, String.toList_append, hname, String.toList_ofList]
    have hsplit : body ++ '>' :: rest = body.takeWhile (fun c => !OpenTag.isGap c) ++
        (body.dropWhile (fun c => !OpenTag.isGap c) ++ '>' :: rest) := by
      rw [← List.append_assoc, hbody]
    simpa using hsplit

/-- What reading stops at starts with a `<`, but with no closing tag. -/
theorem head (h : Stops o s fault) : s.head? = some '<' ∧ s.tail.head? ≠ some '/' := by
  cases h with
  | comment => exact ⟨rfl, by simp⟩
  | rawText hnext =>
    obtain ⟨c, body, hraw, hc⟩ := Lexeme.next?_formed hnext _ rfl
    rw [(Lexeme.next?_eq_some hnext).1, ← (Lexeme.next?_openTag hnext).1, hraw]
    refine ⟨rfl, ?_⟩
    rintro hslash
    obtain rfl : c = '/' := Option.some.inj hslash
    cases hc

/-- The name of a raw text element has no `>` in it. -/
theorem gt_not_mem_of_isRawText {name : String} (h : isRawText name = true) :
    '>' ∉ name.toList :=
  fun hmem => absurd (isAlpha_of_isRawText h '>' (List.mem_map_of_mem hmem)) (by decide)

/-- **The terminator ends the piece at fault**, and reading goes on to the end. -/
theorem parseFrom_terminated (h : Stops o s fault) (b : Builder) (o' : Nat) :
    ∃ b', parseFrom b o' (s ++ fault.terminator.toList) = .ok b' := by
  cases h with
  | @comment rest hrest =>
    have hcomment : '<' :: '!' :: '-' :: '-' :: rest ++ commentEnd =
        writeComment (String.ofList rest) ++ [] := by
      simp [writeComment, commentEnd]
    refine ⟨b.add (.node (.comment (String.ofList rest)) []), ?_⟩
    rw [Fault.terminator, show "-->".toList = commentEnd from rfl, hcomment,
      parseFrom_eq (Lexeme.next?_comment hrest [])]
    exact parseFrom_nil _ _
  | @rawText s x rest raw hnext hopen hraw hrest =>
    have he : (OpenTag.ofRaw raw).element.Formed :=
      OpenTag.formed_ofRaw (Lexeme.next?_formed hnext _ rfl)
    have hclose : ("</" ++ (OpenTag.ofRaw raw).name ++ ">").toList =
        writeCloseTag (OpenTag.ofRaw raw).element ++ [] := by
      simp [writeCloseTag, OpenTag.element]
    have hbody : rawBody? (OpenTag.ofRaw raw).name.toList
        (rest ++ (writeCloseTag (OpenTag.ofRaw raw).element ++ [])) =
          some (rest, writeCloseTag (OpenTag.ofRaw raw).element ++ []) :=
      rawBody?_written (e := (OpenTag.ofRaw raw).element) hraw hrest []
    have hgt : '>' ∉ (OpenTag.ofRaw raw).element.name.toList := gt_not_mem_of_isRawText hraw
    refine ⟨(if rest.isEmpty then b.push (OpenTag.ofRaw raw).element
      else (b.push (OpenTag.ofRaw raw).element).addText rest).close (OpenTag.ofRaw raw).name, ?_⟩
    rw [Fault.terminator, hclose, (Lexeme.next?_eq_some hnext).1, List.append_assoc,
      parseFrom_eq ((Lexeme.next?_openTag hnext).2 _)]
    simp only [hopen, Bool.false_eq_true, if_false, hraw, if_true]
    rw [hbody]
    simp only
    rw [parseFrom_eq (Lexeme.next?_closeTag he hgt [])]
    exact parseFrom_nil _ _

end Stops

/-- Reading stops with a fault after a piece of a source, and the run over that piece is the same
whatever stands behind it: nothing at all, or something that starts with a `<`. -/
def StopsWithin (b : Builder) (o : Nat) (s : List Char) (fault : Fault) : Prop :=
  ∃ before behind b', s = before ++ behind ∧ Stops (o + Text.byteLength before) behind fault ∧
    ∀ o' r, r.head?.all (· == '<') = true →
      parseFrom b o' (before ++ r) = parseFrom b' (o' + Text.byteLength before) r

section StopsWithin

variable {b b₁ : Builder} {o : Nat} {s x body rest : List Char} {fault : Fault}

/-- A fault at the very start has nothing read before it. -/
theorem Stops.within (h : Stops o s fault) (b : Builder) : StopsWithin b o s fault :=
  ⟨[], s, b, rfl, by simpa using h, fun o' r _ => by simp⟩

/-- A step of reading that does not depend on what stands behind it comes before the others. -/
theorem StopsWithin.step (h : StopsWithin b₁ (o + Text.byteLength x) rest fault)
    (hstep : ∀ before behind, rest = before ++ behind → behind.head? = some '<' →
      behind.tail.head? ≠ some '/' → ∀ o' r, r.head?.all (· == '<') = true →
      parseFrom b o' (x ++ (before ++ r)) = parseFrom b₁ (o' + Text.byteLength x) (before ++ r)) :
    StopsWithin b o (x ++ rest) fault := by
  obtain ⟨before, behind, b', rfl, hstops, hsteady⟩ := h
  refine ⟨x ++ before, behind, b', by simp, ?_, fun o' r hr => ?_⟩
  · rwa [Text.byteLength_append, ← Nat.add_assoc]
  · rw [List.append_assoc, hstep before behind rfl hstops.head.1 hstops.head.2 o' r hr,
      hsteady _ r hr, Text.byteLength_append, Nat.add_assoc]

/-- A lexeme comes before the others. -/
theorem StopsWithin.lexeme {token : Option Token}
    (hnext : Lexeme.next? (x ++ rest) = some (⟨x, token⟩, rest))
    (hl : token = none → (Lexeme.mk x token).isText = true)
    (hread : ∀ o' rest', Lexeme.next? (x ++ rest') = some (⟨x, token⟩, rest') →
      parseFrom b o' (x ++ rest') = parseFrom b₁ (o' + Text.byteLength x) rest')
    (h : StopsWithin b₁ (o + Text.byteLength x) rest fault) :
    StopsWithin b o (x ++ rest) fault := by
  refine h.step fun before behind hrest hhead _ o' r hr => hread o' _ ?_
  subst hrest
  exact Lexeme.next?_behind (l := ⟨x, token⟩) hnext hl hhead hr

end StopsWithin

/-- **Every fault is reached by a run that does not depend on what stands behind it.** -/
theorem stopsWithin_of_parseFrom {b : Builder} {o : Nat} {s : List Char} {fault : Fault}
    (h : parseFrom b o s = .error fault) : StopsWithin b o s fault := by
  induction hn : s.length using Nat.strong_induction_on generalizing s b o with
  | _ n ih =>
  have hs : s ≠ [] := by
    rintro rfl
    rw [parseFrom_nil] at h
    cases h
  obtain ⟨⟨x, token⟩, rest, hnext⟩ := exists_next? hs
  have hless := Lexeme.next?_length hnext
  obtain rfl : s = x ++ rest := (Lexeme.next?_eq_some hnext).1
  rw [parseFrom_eq hnext] at h
  rcases token with _ | ⟨body | text | name | raw | text⟩
  case none =>
    dsimp only at h
    split at h
    · rename_i hx
      obtain rfl := Except.error.inj h
      obtain ⟨hsource, hrest⟩ := Lexeme.eq_of_opens hnext hx
      rw [hsource]
      exact (Stops.comment hrest).within b
    · rename_i hx
      refine .lexeme hnext (fun _ => ?_) (fun o' rest' hnext' => ?_) (ih _ (hn ▸ hless) h rfl)
      · simpa [Lexeme.isText] using hx
      · rw [parseFrom_eq hnext']
        simp only [hx, Bool.false_eq_true, if_false]
  case some.comment =>
    exact .lexeme hnext (by simp) (fun _ _ hnext' => parseFrom_eq hnext' _ _)
      (ih _ (hn ▸ hless) h rfl)
  case some.doctype =>
    exact .lexeme hnext (by simp) (fun _ _ hnext' => parseFrom_eq hnext' _ _)
      (ih _ (hn ▸ hless) h rfl)
  case some.closeTag =>
    exact .lexeme hnext (by simp) (fun _ _ hnext' => parseFrom_eq hnext' _ _)
      (ih _ (hn ▸ hless) h rfl)
  case some.openTag =>
    dsimp only at h
    split at h
    · rename_i hempty
      refine .lexeme hnext (by simp) (fun o' rest' hnext' => ?_) (ih _ (hn ▸ hless) h rfl)
      rw [parseFrom_eq hnext']
      simp only [hempty, if_true]
    rename_i hopen
    rw [Bool.not_eq_true] at hopen
    split at h
    · rename_i hraw
      split at h
      · rename_i hbody
        obtain rfl := Except.error.inj h
        exact (Stops.rawText hnext hopen hraw (holdsCloser_of_rawBody?_eq_none hbody)).within b
      · rename_i body rest' hbody
        obtain rfl := rawBody?_eq_some hbody
        have hless' : rest'.length < (x ++ (body ++ rest')).length := by
          rw [List.length_append] at hless
          omega
        have hrun := ih _ (hn ▸ hless') h rfl
        rw [Nat.add_assoc, ← Text.byteLength_append] at hrun
        rw [← List.append_assoc]
        refine hrun.step fun before behind hrest hhead hslash o' r hr => ?_
        subst hrest
        have hbody' := rawBody?_behind hraw hbody hhead hslash r
        rw [List.append_assoc, parseFrom_eq ((Lexeme.next?_openTag hnext).2 _)]
        simp only [hopen, Bool.false_eq_true, if_false, hraw, if_true, hbody',
          Text.byteLength_append, Nat.add_assoc]
    · rename_i hraw
      refine .lexeme hnext (by simp) (fun o' rest' hnext' => ?_) (ih _ (hn ▸ hless) h rfl)
      rw [parseFrom_eq hnext']
      simp only [hopen, hraw, Bool.false_eq_true, if_false]
  case some.text =>
    exact .lexeme hnext (by simp) (fun _ _ hnext' => parseFrom_eq hnext' _ _)
      (ih _ (hn ▸ hless) h rfl)

/-! ### Faults of a source -/

/-- Bytes are counted on lists of characters as on strings. -/
theorem byteLength_toList (s : String) : Text.byteLength s.toList = s.utf8ByteSize := by
  have hlist (l : List Char) : (String.ofList l).utf8ByteSize = Text.byteLength l := by
    induction l with
    | nil => rfl
    | cons c l ih =>
      rw [String.ofList_cons, String.utf8ByteSize_append, ih, String.utf8ByteSize_singleton,
        Text.byteLength_cons]
  rw [← hlist, String.ofList_toList]

/-- **Faults are precise.**  If a source is not accepted, it is a piece that is accepted by itself
and a piece that starts with the opening that the fault names.  The span starts between the two, so
on the boundary of a character, and ends with the source; lengths are in bytes.  The source is
accepted with the one terminator behind it that the fault names. -/
theorem parse_fault {source : String} {fault : Fault} (h : parse source = .error fault) :
    ∃ before behind : String, source = before ++ (fault.opening ++ behind) ∧
      fault.span = ⟨before.utf8ByteSize, source.utf8ByteSize⟩ ∧
      (∃ f, parse before = .ok f) ∧ ∃ f, parse (source ++ fault.terminator) = .ok f := by
  rw [parse] at h
  rcases hread : parseFrom {} 0 source.toList with fault' | b <;> rw [hread] at h
  · obtain rfl : fault' = fault := Except.error.inj h
    obtain ⟨before, piece, b', hsource, hstops, hsteady⟩ := stopsWithin_of_parseFrom hread
    obtain ⟨behind, hpiece⟩ := hstops.exists_opening
    refine ⟨String.ofList before, behind, ?_, ?_, ⟨b'.finish, ?_⟩, ?_⟩
    · rw [← String.toList_inj, hsource, hpiece, String.toList_append (t := _ ++ _),
        String.toList_ofList]
    · rw [hstops.span_eq, spanToEnd, Nat.zero_add, ← byteLength_toList, ← byteLength_toList,
        String.toList_ofList, hsource, Text.byteLength_append]
    · have hrun := hsteady 0 [] rfl
      rw [List.append_nil, parseFrom_nil] at hrun
      rw [parse, String.toList_ofList, hrun]
      rfl
    · obtain ⟨b'', hterminated⟩ := hstops.parseFrom_terminated b' (0 + Text.byteLength before)
      have hhead : (piece ++ fault'.terminator.toList).head?.all (· == '<') = true := by
        rw [List.head?_append, hstops.head.1]
        rfl
      refine ⟨b''.finish, ?_⟩
      rw [parse, String.toList_append, hsource, List.append_assoc, hsteady 0 _ hhead, hterminated]
      rfl
  · cases h

/-- The hypothesis is satisfiable with a `>` in quotes, a comment, a stray and characters of several
bytes before raw text whose closing tag does not come to its end. -/
theorem parse_fault_script :
    parse "<p title='>'>é< </p><!--ü--><SCRIPT>a</scrip" =
        .error (.unterminatedRawText "SCRIPT" ⟨30, 46⟩) ∧
      ∃ before behind : String,
        "<p title='>'>é< </p><!--ü--><SCRIPT>a</scrip" = before ++ ("<SCRIPT" ++ behind) ∧
        Span.mk 30 46 = ⟨before.utf8ByteSize, 46⟩ ∧ (∃ f, parse before = .ok f) ∧
        ∃ f, parse ("<p title='>'>é< </p><!--ü--><SCRIPT>a</scrip" ++ "</SCRIPT>") = .ok f := by
  have hfault : parse "<p title='>'>é< </p><!--ü--><SCRIPT>a</scrip" =
      .error (.unterminatedRawText "SCRIPT" ⟨30, 46⟩) := by
    have hmap : (parse "<p title='>'>é< </p><!--ü--><SCRIPT>a</scrip").map (fun _ => ()) =
        .error (.unterminatedRawText "SCRIPT" ⟨30, 46⟩) := by decide +kernel
    rcases hparse : parse "<p title='>'>é< </p><!--ü--><SCRIPT>a</scrip" with fault | f
    · rw [hparse] at hmap
      rw [Except.error.inj hmap]
    · rw [hparse] at hmap
      cases hmap
  exact ⟨hfault, parse_fault hfault⟩

end Markup
end HtmlCompose
