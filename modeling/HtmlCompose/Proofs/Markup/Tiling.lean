/-
# The pieces of a source tile it

A cursor counts bytes.  Where it stands is told here by the texts on both sides of its piece
(`Cursor.between`): then what is ahead of it, its slice and its next move are known, and none of
them is without a result.  `Proofs.Markup.Recognition` tells how each lexeme comes about, and there
is one case for each of these ways in which the cursor goes over it (`Cursor.over?_between`).  So a
step of the cursor reads the next lexeme (`Cursor.next?_between`), and since no lexeme is empty, a
run comes to the end of the source within as many steps as it has characters, and one to notice the
end (`Cursor.pieces?_between`).

That nothing is lost is told without the cursor.  Lexemes in a row leave no gap
(`Piece.covers_ofLexemes`), so each position is in one of them and in no other
(`Piece.Covers.existsUnique`).  Each is a piece of the source between characters (`Piece.Stands`)
that is what its token says (`Piece.Made`): a longest match of the pattern of its kind, or what is
given up where no pattern matches.  The two halves meet in `pieces_tile`: a character is either in
what starts with a `<`, or it is in the text of a token.
-/
import HtmlCompose.Proofs.Markup.Recognition

namespace HtmlCompose
namespace Markup

namespace Cursor

variable {before x y rest s : List Char}

/-! ### One step -/

/-- The cursor of a piece between two texts. -/
def between (before x rest : List Char) : Cursor :=
  ⟨before ++ (x ++ rest), Text.byteLength before, Text.byteLength before + Text.byteLength x⟩

/-- What is ahead of a cursor between two texts is the second of them. -/
theorem ahead?_between : (between before x rest).ahead? = some rest := by
  have hcut := Text.splitBytes?_append (before ++ x) rest
  rw [Text.byteLength_append, List.append_assoc] at hcut
  rw [ahead?, between, hcut]
  rfl

/-- What the cursor has gone over is the piece. -/
theorem slice?_between : (between before x rest).slice? = some x :=
  Text.slice?_append before x rest

/-- A cursor moves on by the bytes of what comes next. -/
theorem bump?_between :
    (between before x (y ++ rest)).bump? (Text.byteLength y) =
      some (between before (x ++ y) rest) := by
  have hmoved : { between before x (y ++ rest) with
      stop := (between before x (y ++ rest)).stop + Text.byteLength y } =
        between before (x ++ y) rest := by
    simp [between, Nat.add_assoc]
  rw [bump?]
  simp only [hmoved, ahead?_between]
  rfl

/-- A piece that starts where the last one has stopped. -/
theorem start_between : { between before x rest with start := (between before x rest).stop } =
    between (before ++ x) [] rest := by
  simp [between]

/-- The end of a comment is found, and the cursor stands behind it. -/
theorem comment?_between {body : List Char} (h : Text.occurs commentEnd body = false) :
    (between before x (body ++ commentEnd ++ rest)).comment? =
      some (some (.comment (String.ofList body)),
        between before (x ++ (body ++ commentEnd)) rest) := by
  have hfind : Text.find? ['-', '-', '>'] (body ++ commentEnd ++ rest) =
      some (Text.byteLength body) := by
    rw [Text.find?, show ['-', '-', '>'] = commentEnd from rfl, cutAt_commentEnd h]
    rfl
  have hbody := Text.slice?_append [] body (commentEnd ++ rest)
  rw [Text.byteLength_nil, Nat.zero_add, List.nil_append, ← List.append_assoc] at hbody
  have hend : Text.byteLength body + 3 = Text.byteLength (body ++ commentEnd) := by
    rw [Text.byteLength_append]
    rfl
  rw [comment?, ahead?_between]
  simp only [Option.bind_eq_bind, Option.bind_some, hfind, hbody, hend, bump?_between]
  rfl

/-- A comment without end fails with the cursor behind its opening. -/
theorem comment?_endless (h : Text.occurs commentEnd rest = false) :
    (between before x rest).comment? = some (none, between before x rest) := by
  have hfind : Text.find? ['-', '-', '>'] rest = none := by
    rw [Text.find?, Option.map_eq_none_iff]
    exact Option.isNone_iff_eq_none.1 (Option.isSome_eq_false_iff.1 h)
  rw [comment?, ahead?_between]
  simp only [Option.bind_eq_bind, Option.bind_some, hfind]
  rfl

/-- The token of a closing tag is its trimmed name. -/
theorem token?_closeTag {name : List Char} :
    (between before ('<' :: '/' :: (name ++ ['>'])) rest).token? .closeTag =
      some (some (.closeTag (String.ofList (Text.trim name))),
        between before ('<' :: '/' :: (name ++ ['>'])) rest) := by
  have hlength : Text.byteLength ('<' :: '/' :: (name ++ ['>'])) - 1 =
      Text.byteLength ['<', '/'] + Text.byteLength name := by
    simp only [Text.byteLength_cons, Text.byteLength_append, Text.byteLength_nil]
    have hgt : Char.utf8Size '>' = 1 := rfl
    omega
  have hname : Text.slice? 2 (Text.byteLength ('<' :: '/' :: (name ++ ['>'])) - 1)
      ('<' :: '/' :: (name ++ ['>'])) = some name := by
    rw [hlength]
    exact Text.slice?_append ['<', '/'] name ['>']
  simp only [token?, slice?_between, Option.bind_eq_bind, Option.bind_some, hname]
  rfl

/-- A recognised piece is gone over, then looked at as its kind demands. -/
theorem over?_of_recognise? {kind : Lexeme.Kind}
    (h : Lexeme.Kind.recognise? (x ++ rest) = some (kind, x, rest)) :
    (between before [] (x ++ rest)).over? (x ++ rest) = (between before x rest).token? kind := by
  rw [over?, h]
  simp only [bump?_between, Option.bind_eq_bind, Option.bind_some, List.nil_append]

/-- What is not recognised is given up, as far as the rule says. -/
theorem over?_of_givenUp (h : Lexeme.Kind.recognise? (x ++ rest) = none)
    (hlength : Lexeme.givenUp (x ++ rest) = Text.byteLength x) :
    (between before [] (x ++ rest)).over? (x ++ rest) = some (none, between before x rest) := by
  rw [over?, h]
  simp only [hlength, bump?_between, Option.bind_eq_bind, Option.bind_some, List.nil_append]
  rfl

/-- **A cursor goes over a lexeme** and comes to its end. -/
theorem over?_between {l : Lexeme} (h : l.Read rest) :
    (between before [] (l.text ++ rest)).over? (l.text ++ rest) =
      some (l.token, between before l.text rest) := by
  cases h with
  | @comment body _ hbody =>
    have htext : writeComment (String.ofList body) =
        ['<', '!', '-', '-'] ++ (body ++ commentEnd) := by
      simp [writeComment, commentEnd]
    have hrec := Lexeme.Kind.recognise?_comment (body ++ commentEnd ++ rest)
    rw [htext, List.append_assoc]
    refine (over?_of_recognise? hrec).trans ?_
    exact comment?_between hbody
  | endless hrest =>
    refine (over?_of_recognise? (Lexeme.Kind.recognise?_comment rest)).trans ?_
    exact comment?_endless hrest
  | doctype hrec =>
    rw [over?_of_recognise? hrec, token?, slice?_between]
    rfl
  | closeTag hrec => exact (over?_of_recognise? hrec).trans token?_closeTag
  | openTag hrec =>
    rw [over?_of_recognise? hrec, token?, slice?_between]
    rfl
  | text hrec =>
    rw [over?_of_recognise? hrec, token?, slice?_between]
    rfl
  | stray hrec hbegins =>
    refine over?_of_givenUp (x := ['<']) hrec ?_
    rw [List.singleton_append, Lexeme.givenUp, hbegins]
    rfl
  | @lost x hrec hbegins =>
    refine over?_of_givenUp (by rwa [List.append_nil]) ?_
    rw [List.append_nil, Lexeme.givenUp, hbegins]
    rfl

/-- **A step of the cursor reads the next lexeme.** -/
theorem next?_between {l : Lexeme} (h : Lexeme.next? s = some (l, rest)) :
    (between before x s).next? =
      some (some ⟨l.token, ⟨Text.byteLength (before ++ x),
        Text.byteLength (before ++ x) + Text.byteLength l.text⟩⟩,
        between (before ++ x) l.text rest) := by
  obtain ⟨rfl, hne⟩ := Lexeme.next?_eq_some h
  have hnext : (l.text ++ rest).isEmpty = false := by
    rw [List.isEmpty_eq_false_iff]
    exact List.append_ne_nil_of_left_ne_nil hne rest
  rw [next?, ahead?_between]
  simp only [Option.bind_eq_bind, Option.bind_some, hnext, start_between,
    over?_between (Lexeme.read_of_next? h)]
  rfl

/-- At the end of the source there is no further piece. -/
theorem next?_atEnd : (between before x []).next? = some (none, between before x []) := by
  rw [next?, ahead?_between]
  rfl

end Cursor

/-! ### Pieces in a row -/

/-- What holds of the empty source, and of a source if it holds of what stands behind its first
lexeme, holds of every source. -/
@[elab_as_elim] theorem Lexeme.induction {motive : List Char → Prop} (nil : motive [])
    (cons : ∀ (l : Lexeme) (rest : List Char), next? (l.text ++ rest) = some (l, rest) →
      l.text ≠ [] → motive rest → motive (l.text ++ rest)) (s : List Char) : motive s := by
  induction s using Lexeme.all.induct with
  | case1 s hnone =>
    obtain rfl : s = [] := by
      by_contra hs
      obtain ⟨l, rest, hnext⟩ := exists_next? hs
      cases hnone.symm.trans hnext
    exact nil
  | case2 s l rest hnext _ ih =>
    obtain ⟨rfl, hne⟩ := next?_eq_some hnext
    exact cons l rest hnext hne ih

namespace Piece

/-- The pieces that lexemes are, the first one standing at an offset. -/
def ofLexemes : Nat → List Lexeme → List Piece
  | _, [] => []
  | offset, l :: rest =>
    let stop := offset + Text.byteLength l.text
    ⟨l.token, ⟨offset, stop⟩⟩ :: ofLexemes stop rest

/-- The pieces that have not failed are the lexemes with their positions. -/
theorem filterMap_ofLexemes (offset : Nat) (ls : List Lexeme) :
    (ofLexemes offset ls).filterMap positioned? = Lexeme.positioned offset ls := by
  induction ls generalizing offset with
  | nil => rfl
  | cons l ls ih =>
    rw [ofLexemes, Lexeme.positioned, List.filterMap_cons, ih]
    rcases l with ⟨x, _ | t⟩ <;> rfl

/-- Pieces go from one position to another: each starts where the one before it ends, and ends
behind its start. -/
inductive Covers : Nat → List Piece → Nat → Prop where
  | nil {n : Nat} : Covers n [] n
  | cons {start stop n : Nat} {token : Option Token} {ps : List Piece} :
    start < stop → Covers stop ps n → Covers start (⟨token, ⟨start, stop⟩⟩ :: ps) n

/-- Pieces that cover a stretch start inside it. -/
theorem Covers.start_le {o n : Nat} {ps : List Piece} (h : Covers o ps n) :
    ∀ p ∈ ps, o ≤ p.span.start := by
  induction h with
  | nil => exact fun p hp => absurd hp List.not_mem_nil
  | cons hless _ ih => exact List.forall_mem_cons.2 ⟨le_rfl, fun p hp => hless.le.trans (ih p hp)⟩

/-- Each position in between is in one piece. -/
theorem Covers.existsUnique {o n i : Nat} {ps : List Piece} (h : Covers o ps n) (hi : o ≤ i)
    (hin : i < n) : ∃! p, p ∈ ps ∧ p.span.start ≤ i ∧ i < p.span.stop := by
  induction h with
  | nil => omega
  | @cons start stop n token ps hless hps ih =>
    by_cases hstop : i < stop
    · refine ⟨⟨token, ⟨start, stop⟩⟩, ⟨List.mem_cons_self, hi, hstop⟩, ?_⟩
      rintro q ⟨hq, hstart, -⟩
      rcases List.mem_cons.1 hq with rfl | hq
      · rfl
      · have := hps.start_le q hq
        omega
    · obtain ⟨p, ⟨hp, hheld⟩, hunique⟩ := ih (by omega) hin
      refine ⟨p, ⟨List.mem_cons_of_mem _ hp, hheld⟩, ?_⟩
      rintro q ⟨hq, hq'⟩
      rcases List.mem_cons.1 hq with rfl | hq
      · exact absurd hq'.2 hstop
      · exact hunique q ⟨hq, hq'⟩

/-- **The lexemes of a text cover it without gap or overlap.** -/
theorem covers_ofLexemes (o : Nat) (s : List Char) :
    Covers o (ofLexemes o (Lexeme.all s)) (o + Text.byteLength s) := by
  induction s using Lexeme.induction generalizing o with
  | nil =>
    rw [all_nil]
    exact .nil
  | cons l rest hnext hne ih =>
    have hpos := Nat.pos_of_ne_zero (mt Text.byteLength_eq_zero.1 hne)
    rw [all_eq_cons hnext, ofLexemes, Text.byteLength_append, ← Nat.add_assoc]
    exact .cons (by omega) (ih _)

/-- Each piece is a lexeme of the source, with all that is left of the source behind it. -/
theorem exists_of_mem {p : Piece} (before : List Char) {s : List Char}
    (hp : p ∈ ofLexemes (Text.byteLength before) (Lexeme.all s)) :
    ∃ (a : List Char) (l : Lexeme) (b : List Char), before ++ s = a ++ (l.text ++ b) ∧ l.Read b ∧
      p = ⟨l.token, ⟨Text.byteLength a, Text.byteLength a + Text.byteLength l.text⟩⟩ := by
  induction s using Lexeme.induction generalizing before with
  | nil =>
    rw [all_nil] at hp
    exact absurd hp List.not_mem_nil
  | cons l rest hnext _ ih =>
    rw [all_eq_cons hnext, ofLexemes, List.mem_cons] at hp
    rcases hp with rfl | hp
    · exact ⟨before, l, rest, rfl, Lexeme.read_of_next? hnext, rfl⟩
    · rw [← Text.byteLength_append] at hp
      obtain ⟨a, l', b, hs, hread, hp⟩ := ih (before ++ l.text) hp
      exact ⟨a, l', b, by rw [← hs, List.append_assoc], hread, hp⟩

end Piece

/-- The lexemes of a source with their byte positions. -/
def pieces (source : String) : List Piece := Piece.ofLexemes 0 (Lexeme.all source.toList)

/-- **Reading ends**, and reads the lexemes. -/
theorem Cursor.pieces?_between (before x s : List Char) (n : Nat) (hn : s.length < n) :
    (Cursor.between before x s).pieces? n =
      some (Piece.ofLexemes (Text.byteLength (before ++ x)) (Lexeme.all s)) := by
  induction n generalizing before x s with
  | zero => exact absurd hn (Nat.not_lt_zero _)
  | succ n ih =>
    rw [pieces?]
    rcases s with _ | ⟨c, s⟩
    · rw [next?_atEnd, all_nil]
      rfl
    · obtain ⟨l, rest, hnext⟩ := exists_next? (List.cons_ne_nil c s)
      -- a lexeme has a character at least, so one step less is enough for the rest
      have hless := Lexeme.next?_length hnext
      have hrun := ih (before ++ x) l.text rest (by omega)
      rw [Text.byteLength_append (before ++ x)] at hrun
      rw [next?_between hnext, all_eq_cons hnext, Piece.ofLexemes]
      simp only [Option.bind_eq_bind, Option.bind_some, hrun]
      rfl

/-! ### What a piece is -/

namespace Piece

open Lexeme (Kind)

/-- What a piece is by its token: `x` are its characters and `rest` those behind it. -/
def Made : Option Token → List Char → List Char → Prop
  | some (.comment body), x, rest => x = '<' :: '!' :: '-' :: '-' :: (body.toList ++ commentEnd) ∧
      Text.occurs commentEnd body.toList = false ∧
      Kind.comment.Longest ['<', '!', '-', '-'] (x ++ rest)
  | some (.doctype s), x, rest => s.toList = x ∧ Kind.doctype.Longest x (x ++ rest)
  | some (.closeTag name), x, rest =>
      (∃ inner, x = '<' :: '/' :: (inner ++ ['>']) ∧ name = String.ofList (Text.trim inner)) ∧
        Kind.closeTag.Longest x (x ++ rest)
  | some (.openTag raw), x, rest => raw.toList = x ∧ Kind.openTag.Longest x (x ++ rest)
  | some (.text s), x, rest => s.toList = x ∧ Kind.text.Longest x (x ++ rest)
  | none, x, rest =>
      x = ['<', '!', '-', '-'] ∧ Text.occurs commentEnd rest = false ∧
        Kind.comment.Longest x (x ++ rest) ∨
      (∀ kind : Kind, ∀ y, kind.pattern.Matches y → ¬y <+: x ++ rest) ∧
        if Lexeme.begins (x ++ rest) then rest = [] else x = ['<']

/-- A lexeme that is read is made as its token says. -/
theorem made_of_read {l : Lexeme} {rest : List Char} (h : l.Read rest) :
    Made l.token l.text rest := by
  cases h with
  | @comment body _ hbody =>
    have htext : writeComment (String.ofList body) =
        '<' :: '!' :: '-' :: '-' :: ((String.ofList body).toList ++ commentEnd) := by
      simp [writeComment, commentEnd]
    refine ⟨htext, by rwa [String.toList_ofList], ?_⟩
    simp only [htext]
    exact (Kind.of_recognise? (Kind.recognise?_comment _)).2
  | endless hrest => exact .inl ⟨rfl, hrest, (Kind.of_recognise? (Kind.recognise?_comment _)).2⟩
  | doctype hrec => exact ⟨String.toList_ofList, (Kind.of_recognise? hrec).2⟩
  | closeTag hrec => exact ⟨⟨_, rfl, rfl⟩, (Kind.of_recognise? hrec).2⟩
  | openTag hrec => exact ⟨String.toList_ofList, (Kind.of_recognise? hrec).2⟩
  | text hrec => exact ⟨String.toList_ofList, (Kind.of_recognise? hrec).2⟩
  | stray hrec hbegins =>
    refine .inr ⟨fun kind y hy => Kind.not_prefix_of_recognise?_eq_none hrec kind hy, ?_⟩
    simp [hbegins]
  | lost hrec hbegins =>
    refine .inr ⟨fun kind y hy => ?_, ?_⟩
    · rw [List.append_nil]
      exact Kind.not_prefix_of_recognise?_eq_none hrec kind hy
    · rw [List.append_nil, hbegins]
      rfl

/-- Everything but text starts with a `<`. -/
theorem Made.head {p : Piece} {x rest : List Char} (h : Made p.token x rest) :
    p.isMarkup = true ↔ x.head? = some '<' := by
  obtain ⟨token, span⟩ := p
  rw [isMarkup]
  rcases token with _ | ⟨body | s | name | raw | s⟩
  case none =>
    refine iff_of_true rfl ?_
    rcases h with ⟨rfl, -⟩ | ⟨-, h⟩
    · rfl
    · split at h
      · rename_i hbegins
        rw [h, List.append_nil] at hbegins
        exact Lexeme.head_of_begins hbegins
      · rw [h]
        rfl
  case some.comment =>
    refine iff_of_true rfl ?_
    rw [h.1]
    rfl
  case some.doctype => exact iff_of_true rfl (Kind.head_of_matches h.2.1 (by decide))
  case some.closeTag => exact iff_of_true rfl (Kind.head_of_matches h.2.1 (by decide))
  case some.openTag => exact iff_of_true rfl (Kind.head_of_matches h.2.1 (by decide))
  case some.text => exact iff_of_false Bool.false_ne_true (Kind.head_of_matches_text h.2.1)

/-- The piece of a source by its characters, and those before and behind it. -/
structure Stands (p : Piece) (source before text behind : String) : Prop where
  source_eq : source = before ++ (text ++ behind)
  start_eq : p.span.start = before.utf8ByteSize
  stop_eq : p.span.stop = (before ++ text).utf8ByteSize

/-- The character behind a text is in the piece, with all of its bytes. -/
def Holds (p : Piece) (before : String) (c : Char) : Prop :=
  p.span.start ≤ before.utf8ByteSize ∧ before.utf8ByteSize + c.utf8Size ≤ p.span.stop

variable {p : Piece} {source before text behind : String}

/-- The place of a piece tells its characters. -/
theorem Stands.unique {before' text' behind' : String} (h : p.Stands source before text behind)
    (h' : p.Stands source before' text' behind') :
    before = before' ∧ text = text' ∧ behind = behind' := by
  have hsource := congrArg String.toList (h.source_eq.symm.trans h'.source_eq)
  have hstart := h.start_eq.symm.trans h'.start_eq
  have hstop := h.stop_eq.symm.trans h'.stop_eq
  simp only [String.toList_append, Text.byteLength_append, ← byteLength_toList] at *
  -- both cut the source at the same two positions
  obtain ⟨hbefore, hrest⟩ := Text.append_inj_of_byteLength hsource hstart
  obtain ⟨htext, hbehind⟩ := Text.append_inj_of_byteLength hrest (by omega)
  exact ⟨String.toList_inj.1 hbefore, String.toList_inj.1 htext, String.toList_inj.1 hbehind⟩

/-- A piece that the place of a character is in has all of the character. -/
theorem Stands.holds {c : Char} {a b : String} (h : p.Stands source before text behind)
    (hsource : source = a ++ (String.singleton c ++ b)) (hstart : p.span.start ≤ a.utf8ByteSize)
    (hstop : a.utf8ByteSize < p.span.stop) : p.Holds a c ∧ c ∈ text.toList := by
  have heq := congrArg String.toList (h.source_eq.symm.trans hsource)
  rw [h.start_eq] at hstart
  rw [h.stop_eq] at hstop
  simp only [Holds, h.start_eq, h.stop_eq, String.toList_append, String.toList_singleton,
    List.singleton_append, Text.byteLength_append, ← byteLength_toList] at *
  obtain ⟨hmem, hle⟩ := Text.mem_of_byteLength heq hstart hstop
  exact ⟨⟨hstart, hle⟩, hmem⟩

/-- Every piece stands at one place of the source, and is made as its token says. -/
theorem exists_stands (hp : p ∈ pieces source) :
    ∃ before text behind, p.Stands source before text behind ∧
      Made p.token text.toList behind.toList := by
  obtain ⟨a, l, b, hsource, hread, rfl⟩ := exists_of_mem [] hp
  refine ⟨String.ofList a, String.ofList l.text, String.ofList b, ⟨?_, ?_, ?_⟩, ?_⟩
  · rw [← String.toList_inj, ← List.nil_append source.toList, hsource]
    simp
  · rw [← byteLength_toList, String.toList_ofList]
  · rw [← byteLength_toList, String.toList_append, String.toList_ofList, String.toList_ofList,
      Text.byteLength_append]
  · rw [String.toList_ofList, String.toList_ofList]
    exact made_of_read hread

/-- Text that has been given up is a `<`, the start of a comment or all that is left. -/
theorem Made.failed {x rest : List Char} (h : Made none x rest) :
    x = ['<'] ∨ x = ['<', '!', '-', '-'] ∨ rest = [] := by
  rcases h with ⟨hx, -⟩ | ⟨-, h⟩
  · exact .inr (.inl hx)
  · split at h
    · exact .inr (.inr h)
    · exact .inl h

end Piece

/-! ### The tiling -/

/-- Pieces tile a source. -/
structure Tiles (source : String) (pieces : List Piece) : Prop where
  /-- They go from its start to its end; none is empty, nothing is left out, none overlap. -/
  covers : Piece.Covers 0 pieces source.utf8ByteSize
  /-- Each starts and ends between characters, and is what its token says. -/
  stands : ∀ p ∈ pieces, ∃ before text behind, p.Stands source before text behind ∧
    Piece.Made p.token text.toList behind.toList
  /-- Those other than text are those that start with a `<`. -/
  opens : ∀ p ∈ pieces, ∀ before text behind, p.Stands source before text behind →
    (p.isMarkup = true ↔ text.toList.head? = some '<')
  /-- What has been given up is a `<`, the start of a comment or all that is left. -/
  failed : ∀ p ∈ pieces, p.token = none → ∀ before text behind, p.Stands source before text behind →
    text.toList.head? = some '<' ∧ (text = "<" ∨ text = "<!--" ∨ behind = "")
  /-- Each character is in one of them. -/
  once : ∀ before c behind, source = before ++ (String.singleton c ++ behind) →
    ∃! p, p ∈ pieces ∧ p.Holds before c
  /-- A character in none of those other than text is in the text of a token. -/
  text : ∀ before c behind, source = before ++ (String.singleton c ++ behind) →
    (∀ p ∈ pieces, p.isMarkup = true → ¬p.Holds before c) →
      ∃ p ∈ pieces, ∃ s, p.token = some (.text s) ∧ p.Holds before c ∧ c ∈ s.toList

namespace Piece

variable {source : String} {p : Piece}

/-- Wherever a piece stands, what stands there is made as its token says. -/
theorem made_of_stands (hp : p ∈ pieces source) {before text behind : String}
    (h : p.Stands source before text behind) : Made p.token text.toList behind.toList := by
  obtain ⟨_, _, _, hstands, hmade⟩ := exists_stands hp
  obtain ⟨-, rfl, rfl⟩ := h.unique hstands
  exact hmade

/-- A character is in a piece, and in no other. -/
theorem existsUnique_holds {before behind : String} {c : Char}
    (h : source = before ++ (String.singleton c ++ behind)) :
    ∃! p, p ∈ pieces source ∧ p.Holds before c := by
  have hpos := c.utf8Size_pos
  have hlength : before.utf8ByteSize < 0 + Text.byteLength source.toList := by
    rw [byteLength_toList, h]
    simp only [String.utf8ByteSize_append, String.utf8ByteSize_singleton]
    omega
  obtain ⟨p, ⟨hp, hstart, hstop⟩, hunique⟩ :=
    (covers_ofLexemes 0 source.toList).existsUnique (Nat.zero_le _) hlength
  obtain ⟨_, _, _, hstands, -⟩ := exists_stands hp
  refine ⟨p, ⟨hp, (hstands.holds h hstart hstop).1⟩, ?_⟩
  rintro q ⟨hq, hstart', hstop'⟩
  exact hunique q ⟨hq, hstart', by omega⟩

/-- A piece of text has the characters that it holds. -/
theorem exists_text {before behind : String} {c : Char}
    (h : source = before ++ (String.singleton c ++ behind)) (hp : p ∈ pieces source)
    (hholds : p.Holds before c) (htext : p.isMarkup = false) :
    ∃ s, p.token = some (.text s) ∧ c ∈ s.toList := by
  have hpos := c.utf8Size_pos
  obtain ⟨_, x, _, hstands, hmade⟩ := exists_stands hp
  obtain ⟨s, hs⟩ : ∃ s, p.token = some (.text s) := by
    rw [isMarkup] at htext
    split at htext
    · exact ⟨_, ‹_›⟩
    · cases htext
  rw [hs] at hmade
  refine ⟨s, hs, ?_⟩
  rw [hmade.1]
  exact (hstands.holds h hholds.1 (by have := hholds.2; omega)).2

/-- The pieces tile their source. -/
theorem tiles_pieces (source : String) : Tiles source (pieces source) where
  covers := by
    rw [← byteLength_toList, ← Nat.zero_add (Text.byteLength source.toList)]
    exact covers_ofLexemes 0 source.toList
  stands _ hp := exists_stands hp
  opens _ hp _ _ _ hstands := (made_of_stands hp hstands).head
  failed p hp hfailed _ text behind hstands := by
    have hmade := made_of_stands hp hstands
    have hmarkup : p.isMarkup = true := by rw [isMarkup, hfailed]
    refine ⟨hmade.head.1 hmarkup, ?_⟩
    rw [hfailed] at hmade
    exact hmade.failed.imp String.toList_inj.1 (Or.imp String.toList_inj.1 String.toList_inj.1)
  once _ _ _ h := existsUnique_holds h
  text before c behind h hnone := by
    obtain ⟨p, ⟨hp, hholds⟩, -⟩ := existsUnique_holds h
    have htext : p.isMarkup = false :=
      Bool.eq_false_of_not_eq_true fun hmarkup => hnone p hp hmarkup hholds
    obtain ⟨s, hs, hc⟩ := exists_text h hp hholds htext
    exact ⟨p, hp, s, hs, hholds, hc⟩

end Piece

/-- **The pieces of a source tile it.**  Reading comes to an end, with a cursor that has never left
the boundaries of characters.  The tokens of the source are those of the pieces, and the pieces are
the whole of it. -/
theorem pieces_tile (source : String) :
    (∀ n, source.length < n → (Cursor.ofSource source).pieces? n = some (pieces source)) ∧
      tokens source = (pieces source).filterMap Piece.positioned? ∧
      Tiles source (pieces source) := by
  refine ⟨fun n hn => ?_, (Piece.filterMap_ofLexemes 0 _).symm, Piece.tiles_pieces source⟩
  exact Cursor.pieces?_between [] [] source.toList n (by rwa [String.length_toList])

end Markup
end HtmlCompose
