/-
# A compiled script is its own compilation

What a script is compiled to holds no comments, no blanks at line ends and no blank lines, and it
is compiled to itself (`compile_compile`).

Lines are tidied without regard to strings that go on over their ends.  Seen from the right, this is
a rule for single blanks: a blank is left out if nothing stands behind it any more, or a line feed
(`settle`, `settle_lineFeed`).  A blank that is left out changes the place of what follows only
behind a slash and behind a backslash, and there the line feed takes its part (`strip_settle`).
-/
import HtmlCompose.Enhance.Script
import HtmlCompose.Proofs.Text.Search

namespace HtmlCompose
namespace Script

/-! ### Lines -/

/-- Nothing is left of a text, or a line ends where it starts. -/
def atEnd (s : List Char) : Bool := s.head?.all (· == '\n')

/-- The text without the blanks that have nothing behind them, or a line feed, once what stands
behind them has been settled. -/
def settle : List Char → List Char
  | [] => []
  | c :: s => if Text.isBlank c && atEnd (settle s) then settle s else c :: settle s

/-- A line ends at the end of the text or before a line feed. -/
theorem atEnd_iff {s : List Char} : atEnd s = true ↔ s = [] ∨ ∃ r, s = '\n' :: r := by
  rcases s with _ | ⟨c, s⟩ <;> simp [atEnd]

/-- What is not blank stays where it is. -/
theorem settle_cons {c : Char} (hc : Text.isBlank c = false) (s : List Char) :
    settle (c :: s) = c :: settle s := by
  rw [settle, hc]
  rfl

/-- What has been settled stays. -/
theorem settle_settle (s : List Char) : settle (settle s) = settle s := by
  induction s with
  | nil => rfl
  | cons c s ih =>
    rw [settle]
    split_ifs with h
    · exact ih
    · rw [settle, ih, if_neg h]

/-- What has been settled in a line starts at its end or as the text does. -/
theorem head?_settle (s : List Char) :
    atEnd (settle s) = true ∨ (settle s).head? = s.head? := by
  rcases s with _ | ⟨c, s⟩
  · exact .inl rfl
  · rw [settle]
    split_ifs with h
    · exact .inl (Bool.and_eq_true_iff.1 h).2
    · exact .inr rfl

/-- Nothing is left of a blank line, and of no other. -/
theorem trimEnd_eq_nil {s : List Char} :
    Text.trimEnd Text.isBlank s = [] ↔ Text.allBlank s = true := by
  rw [Text.allBlank, List.all_eq_true]
  exact List.rdropWhile_eq_nil_iff

/-- Of a line with a blank at its start nothing is left if the rest is blank too. -/
theorem trimEnd_cons (c : Char) (s : List Char) : Text.trimEnd Text.isBlank (c :: s) =
    if Text.isBlank c && Text.allBlank s then [] else c :: Text.trimEnd Text.isBlank s := by
  have hempty : (s.reverse.dropWhile Text.isBlank).isEmpty = Text.allBlank s := by
    rw [Bool.eq_iff_iff, ← trimEnd_eq_nil, Text.trimEnd, List.isEmpty_iff, List.reverse_eq_nil_iff]
  rw [Text.trimEnd, List.reverse_cons, List.dropWhile_append, hempty]
  rcases hs : Text.allBlank s
  · rw [Bool.and_false, if_neg Bool.false_ne_true, if_neg Bool.false_ne_true, List.reverse_append]
    rfl
  · rw [Bool.and_true, if_pos rfl, trimEnd_eq_nil.2 hs]
    rcases hc : Text.isBlank c <;> simp [hc]

/-- The lines that are kept of some lines, each behind a line feed. -/
def keptLines (lines : List (List Char)) : List Char :=
  (lines.filter fun l => !Text.allBlank l).flatMap fun l => '\n' :: Text.trimEnd Text.isBlank l

/-- The kept lines are the first one, trimmed, if it is not blank, and those of the rest. -/
theorem keptLines_cons (line : List Char) (lines : List (List Char)) :
    keptLines (line :: lines) = (if Text.allBlank line then [] else
      '\n' :: Text.trimEnd Text.isBlank line) ++ keptLines lines := by
  rw [keptLines, List.filter_cons]
  rcases Text.allBlank line <;> rfl

/-- Kept lines start with a line feed, if there are any. -/
theorem atEnd_keptLines (lines : List (List Char)) : atEnd (keptLines lines) = true := by
  induction lines with
  | nil => rfl
  | cons line lines ih =>
    rw [keptLines_cons]
    split_ifs
    · exact ih
    · rfl

/-- **A line is settled at its end, and the lines behind it as a whole.** -/
theorem settle_eq {s line : List Char} {lines : List (List Char)}
    (h : s.splitOn '\n' = line :: lines) :
    settle s = Text.trimEnd Text.isBlank line ++ keptLines lines := by
  induction s generalizing line lines with
  | nil =>
    rw [List.splitOn_nil] at h
    obtain ⟨rfl, rfl⟩ := List.cons.inj h
    rfl
  | cons c s ih =>
    obtain ⟨first, rest, hsplit⟩ := List.exists_cons_of_ne_nil (List.splitOn_ne_nil '\n' s)
    have hs := ih hsplit
    rw [List.splitOn_cons_eq_if_modifyHead, hsplit] at h
    -- the rest is at an end just if its first line is blank
    have hend : atEnd (settle s) = Text.allBlank first := by
      rcases hblank : Text.allBlank first
      · obtain ⟨d, r, hd⟩ := List.exists_cons_of_ne_nil
          (mt trimEnd_eq_nil.1 (Bool.not_eq_true _ ▸ hblank))
        have hstart : Text.trimEnd Text.isBlank first <+: first := List.rdropWhile_prefix _ first
        have hmem : d ∈ first := hstart.subset (hd.symm ▸ List.mem_cons_self)
        have hfirst : '\n' ∉ first := Text.not_mem_of_mem_splitOn (hsplit.symm ▸ List.mem_cons_self)
        rw [hs, hd]
        exact beq_false_of_ne (ne_of_mem_of_not_mem hmem hfirst)
      · rw [hs, trimEnd_eq_nil.2 hblank]
        exact atEnd_keptLines rest
    split_ifs at h with hc
    · obtain ⟨rfl, rfl⟩ := List.cons.inj h
      obtain rfl := beq_iff_eq.1 hc
      rw [settle, hend, hs, keptLines_cons]
      rcases hblank : Text.allBlank first
      · rfl
      · rw [trimEnd_eq_nil.2 hblank]
        rfl
    · obtain ⟨rfl, rfl⟩ := List.cons.inj h
      rw [settle, hend, hs, trimEnd_cons]
      split_ifs with hblank
      · rw [trimEnd_eq_nil.2 (Bool.and_eq_true_iff.1 hblank).2]
      · rfl

/-- Lines put together are the first one and the others, each behind a line feed. -/
theorem intercalate_lines (first : List Char) (rest : List (List Char)) :
    ['\n'].intercalate (first :: rest) = first ++ rest.flatMap ('\n' :: ·) := by
  induction rest generalizing first with
  | nil => rw [List.intercalate_singleton, List.flatMap_nil, List.append_nil]
  | cons next rest ih => rw [List.intercalate_cons_cons, ih, List.flatMap_cons]; simp

/-- **Tidied lines are what is settled behind a line feed**, without the line feed. -/
theorem settle_lineFeed (s : List Char) :
    settle ('\n' :: s) = if tidyLines s = [] then [] else '\n' :: tidyLines s := by
  have hsplit : ('\n' :: s).splitOn '\n' = [] :: s.splitOn '\n' := by
    rw [List.splitOn_cons_eq_if_modifyHead]
    exact if_pos (beq_self_eq_true _)
  have hsettle : settle ('\n' :: s) = keptLines (s.splitOn '\n') := settle_eq hsplit
  rw [hsettle, keptLines, tidyLines]
  rcases hlines : (s.splitOn '\n').filter (fun l => !Text.allBlank l) with _ | ⟨first, rest⟩
  · rfl
  · have hfirst : Text.trimEnd Text.isBlank first ≠ [] := by
      have hmem : first ∈ (s.splitOn '\n').filter fun l => !Text.allBlank l :=
        hlines ▸ List.mem_cons_self
      rw [ne_eq, trimEnd_eq_nil]
      simpa using (List.mem_filter.1 hmem).2
    rw [List.map_cons, intercalate_lines, List.flatMap_map, List.flatMap_cons,
      if_neg fun h => hfirst (List.append_eq_nil_iff.1 h).1]
    rfl

/-- Tidied lines are tidy. -/
theorem tidyLines_tidyLines (s : List Char) : tidyLines (tidyLines s) = tidyLines s := by
  have hs := settle_lineFeed s
  split_ifs at hs with hnil
  · rw [hnil]
    rfl
  · have hagain := settle_settle ('\n' :: s)
    rw [hs, settle_lineFeed] at hagain
    split_ifs at hagain
    exact (List.cons.inj hagain).2

/-- Each tidied line ends in a character that is not blank. -/
theorem getLast?_line {s line : List Char} (hs : tidyLines s ≠ [])
    (h : line ∈ (tidyLines s).splitOn '\n') : ∃ c ∈ line.getLast?, Text.isBlank c = false := by
  have hline : ∀ line ∈ ((s.splitOn '\n').filter fun l => !Text.allBlank l).map
      (Text.trimEnd Text.isBlank), '\n' ∉ line ∧ ∃ c ∈ line.getLast?, Text.isBlank c = false := by
    refine List.forall_mem_map.2 fun l hl => ?_
    obtain ⟨hmem, hblank⟩ := List.mem_filter.1 hl
    have hstart : Text.trimEnd Text.isBlank l <+: l := List.rdropWhile_prefix _ l
    refine ⟨fun hfeed => Text.not_mem_of_mem_splitOn hmem (hstart.subset hfeed), ?_⟩
    have hne : Text.trimEnd Text.isBlank l ≠ [] := by
      rw [ne_eq, trimEnd_eq_nil]
      simpa using hblank
    have htrimmed : Text.trimEnd Text.isBlank (Text.trimEnd Text.isBlank l) =
      Text.trimEnd Text.isBlank l := List.rdropWhile_idempotent _ l
    have hlast := List.getLast?_eq_some_getLast hne
    exact ⟨_, hlast, Text.trimEnd_eq_self_iff.1 htrimmed _ hlast⟩
  rw [tidyLines, List.splitOn_intercalate _ (fun l hl => (hline l hl).1) ?_] at h
  · exact (hline line h).2
  · rintro hnil
    exact hs (by rw [tidyLines, hnil]; rfl)

/-! ### Places -/

variable {p : Place} {c q : Char} {s t x : List Char}

/-- A mapped result is a result of what is mapped. -/
theorem map_eq_ok {ε α β : Type} {f : α → β} {x : Except ε α} {b : β} :
    x.map f = .ok b ↔ ∃ a, x = .ok a ∧ f a = b := by
  rcases x with e | a <;> simp [Except.map]

/-- The place in the text that is kept, where comments are nothing. -/
def Place.kept : Place → Place
  | .string q => .string q
  | .escape q => .escape q
  | _ => .code

/-- Strings are opened by quotes. -/
def Place.quoted : Place → Bool
  | .string q | .escape q => isQuote q
  | _ => true

/-- A quote is not blank. -/
theorem isBlank_of_isQuote (h : isQuote q = true) : Text.isBlank q = false := by
  simp only [isQuote, Bool.or_eq_true, beq_iff_eq] at h
  rcases h with (rfl | rfl) | rfl <;> rfl

/-- A blank is different from what is not blank. -/
theorem ne_of_isBlank (hc : Text.isBlank c = true) (hq : Text.isBlank q = false) : c ≠ q := by
  rintro rfl
  rw [hq] at hc
  cases hc

/-- A blank is no quote. -/
theorem isQuote_of_isBlank (h : Text.isBlank c = true) : isQuote c = false := by
  by_contra hquote
  rw [isBlank_of_isQuote (Bool.not_eq_false _ ▸ hquote)] at h
  cases h

/-- A character in code that is no slash is kept, and may open a string. -/
theorem strip_code (hslash : c ≠ '/') (s : List Char) : strip .code (c :: s) =
    (strip (if isQuote c then .string c else .code) s).map (c :: ·) := by
  rw [strip, if_neg hslash]
  split_ifs <;> rfl

/-- The text does not make a slash in front of it open a comment. -/
def OpensNone (s : List Char) : Prop := ∀ c ∈ s.head?, c ≠ '*' ∧ c ≠ '/'

/-- Nor does it once it has been settled. -/
theorem OpensNone.settle (h : OpensNone s) : OpensNone (settle s) := by
  intro c hc
  rcases head?_settle s with hend | hhead
  · rcases atEnd_iff.1 hend with hnil | ⟨r, hfeed⟩
    · rw [hnil] at hc
      cases hc
    · rw [hfeed] at hc
      obtain rfl := Option.some.inj hc
      decide
  · exact h c (hhead ▸ hc)

/-- A slash is written as soon as it is known to open no comment. -/
theorem strip_slash (h : OpensNone s) : strip .slash s = (strip .code s).map ('/' :: ·) := by
  rcases s with _ | ⟨c, s⟩
  · rfl
  · obtain ⟨hstar, hslash⟩ := h c rfl
    simp only [strip, if_neg hstar, if_neg hslash]
    split_ifs
    · cases strip (.string c) s <;> rfl
    · cases strip .code s <;> rfl

/-- A blank at the end of a line may go. -/
theorem strip_drop (hp : p.quoted = true) (hkept : p.kept = p) (hc : Text.isBlank c = true)
    (hx : atEnd x = true) (h : strip p (c :: x) = .ok (c :: x)) : strip p x = .ok x := by
  have hne : ∀ {d}, Text.isBlank d = false → c ≠ d := fun hd => ne_of_isBlank hc hd
  have htail : ∀ {y : Except Fault (List Char)}, y.map (c :: ·) = .ok (c :: x) → y = .ok x := by
    intro y hy
    obtain ⟨x', rfl, heq⟩ := map_eq_ok.1 hy
    rw [(List.cons.inj heq).2]
  cases p
  case code =>
    rw [strip, if_neg (hne rfl), isQuote_of_isBlank hc] at h
    exact htail h
  case string q =>
    rw [strip, if_neg (hne rfl), if_neg (hne (isBlank_of_isQuote hp))] at h
    split_ifs at h
    exact htail h
  case escape q =>
    rw [strip] at h
    have hstring := htail h
    rcases atEnd_iff.1 hx with rfl | ⟨r, rfl⟩
    · cases hstring
    · -- the line feed is what is escaped now
      rw [strip, if_neg (by decide), if_neg (ne_of_isBlank rfl (isBlank_of_isQuote hp))] at hstring
      split_ifs at hstring
      rw [strip]
      exact hstring
  all_goals cases hkept

/-- Reading goes on with what stands behind a character, be it left out or not. -/
theorem strip_settle_cons {p' : Place} (hp : p.quoted = true) (hkept : p.kept = p)
    (hstep : strip p (c :: settle s) = (strip p' (settle s)).map (c :: ·))
    (h : strip p' (settle s) = .ok (settle s)) :
    strip p (settle (c :: s)) = .ok (settle (c :: s)) := by
  have hread : strip p (c :: settle s) = .ok (c :: settle s) := by
    rw [hstep, h]
    rfl
  rw [settle]
  split_ifs with hdropped
  · obtain ⟨hc, hend⟩ := Bool.and_eq_true_iff.1 hdropped
    exact strip_drop hp hkept hc hend hread
  · exact hread

/-- What can be read on behind a character that is no slash can be read on before it. -/
theorem strip_settle_code (hslash : c ≠ '/')
    (h : strip (if isQuote c then .string c else .code) (settle s) = .ok (settle s)) :
    strip .code (settle (c :: s)) = .ok (settle (c :: s)) :=
  strip_settle_cons rfl rfl (strip_code hslash _) h

/-- A slash that opens no comment does not open one if blanks behind it are left out. -/
theorem strip_settle_slash (hstar : c ≠ '*') (hslash : c ≠ '/')
    (h : strip .code (settle (c :: s)) = .ok (settle (c :: s))) :
    strip .code (settle ('/' :: c :: s)) = .ok (settle ('/' :: c :: s)) := by
  have hopens : OpensNone (c :: s) := fun d hd => Option.some.inj hd ▸ ⟨hstar, hslash⟩
  rw [settle_cons rfl, strip, if_pos rfl, strip_slash hopens.settle, h]
  rfl

/-- **What is kept of a script is read as it is once it has been settled**, from the place on where
the script is read. -/
theorem strip_settle (hp : p.quoted = true) (h : strip p s = .ok t) :
    strip p.kept (settle t) = .ok (settle t) := by
  fun_induction strip p s generalizing t with
  | case1 | case5 | case21 => cases h; rfl
  | case2 cs ih | case6 cs ih | case7 cs _ ih => exact ih rfl h
  | case3 c cs hslash hquote ih =>
    obtain ⟨t, ht, rfl⟩ := map_eq_ok.1 h
    exact strip_settle_code hslash (by rw [if_pos hquote]; exact ih hquote ht)
  | case4 c cs hslash hquote ih =>
    obtain ⟨t, ht, rfl⟩ := map_eq_ok.1 h
    exact strip_settle_code hslash (by rw [if_neg hquote]; exact ih rfl ht)
  | case8 c cs hstar hslash hquote ih =>
    obtain ⟨t, ht, rfl⟩ := map_eq_ok.1 h
    refine strip_settle_slash hstar hslash ?_
    exact strip_settle_code hslash (by rw [if_pos hquote]; exact ih hquote ht)
  | case9 c cs hstar hslash hquote ih =>
    obtain ⟨t, ht, rfl⟩ := map_eq_ok.1 h
    refine strip_settle_slash hstar hslash ?_
    exact strip_settle_code hslash (by rw [if_neg hquote]; exact ih rfl ht)
  | case10 | case13 | case15 | case17 | case19 => cases h
  | case11 q cs ih =>
    obtain ⟨t, ht, rfl⟩ := map_eq_ok.1 h
    exact strip_settle_cons hp rfl (by simp only [Place.kept, strip, if_true]) (ih hp ht)
  | case12 c cs hslash ih =>
    obtain ⟨t, ht, rfl⟩ := map_eq_ok.1 h
    exact strip_settle_cons hp rfl (by simp only [Place.kept, strip, if_neg hslash, if_true])
      (ih rfl ht)
  | case14 q c cs hslash hq hfeed ih =>
    obtain ⟨t, ht, rfl⟩ := map_eq_ok.1 h
    exact strip_settle_cons hp rfl
      (by simp only [Place.kept, strip, if_neg hslash, if_neg hq, if_neg hfeed]) (ih hp ht)
  | case16 q c cs ih =>
    obtain ⟨t, ht, rfl⟩ := map_eq_ok.1 h
    exact strip_settle_cons hp rfl (by simp only [Place.kept, strip]) (ih hp ht)
  | case18 c cs ih =>
    have hkept : (if c = '*' then Place.blockEnd else .block).kept = .code := by
      split_ifs <;> rfl
    have hread := ih (by split_ifs <;> rfl) h
    rwa [hkept] at hread
  | case20 c cs ih =>
    have hkept : (if c = '/' then Place.code else if c = '*' then .blockEnd else .block).kept =
        .code := by
      split_ifs <;> rfl
    have hread := ih (by split_ifs <;> rfl) h
    rwa [hkept] at hread
  | case22 cs ih =>
    obtain ⟨t, ht, rfl⟩ := map_eq_ok.1 h
    exact strip_settle_cons rfl rfl (by rfl) (ih rfl ht)
  | case23 c cs _ ih => exact ih rfl h

/-- The tidied lines of what is kept of a script hold no comment and nothing that does not end. -/
theorem strip_tidyLines (h : strip .code s = .ok t) :
    strip .code (tidyLines t) = .ok (tidyLines t) := by
  have hfeed : strip .code ('\n' :: s) = .ok ('\n' :: t) := by
    rw [strip_code (by decide), if_neg (by decide), h]
    rfl
  have hread : strip .code (settle ('\n' :: t)) = .ok (settle ('\n' :: t)) := strip_settle rfl hfeed
  rw [settle_lineFeed] at hread
  split_ifs at hread with hnil
  · rw [hnil]
    rfl
  · rw [strip_code (by decide), if_neg (by decide)] at hread
    obtain ⟨t', ht', heq⟩ := map_eq_ok.1 hread
    rwa [(List.cons.inj heq).2] at ht'

/-- **Compiling a compiled script changes nothing.**  What a script is compiled to is accepted and
compiled to itself.  It holds no comment, so that all of it is kept, and it is empty or has no line
that is blank or ends in a blank. -/
theorem compile_compile {source output : String} (h : compile source = .ok output) :
    compile output = .ok output ∧ strip .code output.toList = .ok output.toList ∧
      (output ≠ "" → ∀ line ∈ output.toList.splitOn '\n',
        ∃ c ∈ line.getLast?, Text.isBlank c = false) := by
  obtain ⟨t, ht, rfl⟩ := map_eq_ok.1 h
  rw [compile, String.toList_ofList, strip_tidyLines ht]
  refine ⟨?_, rfl, fun hne line hline => getLast?_line (fun hnil => hne ?_) hline⟩
  · show Except.ok (String.ofList (tidyLines (tidyLines t))) = _
    rw [tidyLines_tidyLines]
  · rw [hnil]

/-- Line ends in templates and behind backslashes, a slash at a line end, and comments that begin in
one another. -/
def tangledScript : String :=
  "/* / */ let q = 4 / \t\n/**/2 / 1 ;// '\n\n let s = '/* \\\n */' /*'*/\n" ++
    " + `a \\ \n \n // b\\` ` ; \n\n"

/-- A tangled script is compiled to a text that stays. -/
theorem compile_compile_tangled :
    compile tangledScript =
      .ok " let q = 4 /\n2 / 1 ;\n let s = '/* \\\n */'\n + `a \\\n // b\\` ` ;" ∧
    compile " let q = 4 /\n2 / 1 ;\n let s = '/* \\\n */'\n + `a \\\n // b\\` ` ;" =
      .ok " let q = 4 /\n2 / 1 ;\n let s = '/* \\\n */'\n + `a \\\n // b\\` ` ;" := by
  have h : compile tangledScript =
      .ok " let q = 4 /\n2 / 1 ;\n let s = '/* \\\n */'\n + `a \\\n // b\\` ` ;" := by
    decide +kernel
  exact ⟨h, (compile_compile h).1⟩

end Script
end HtmlCompose
