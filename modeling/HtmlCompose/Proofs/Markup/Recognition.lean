/-
# Lexemes are longest matches

The rules that a source is cut into lexemes by are those of five patterns of which the one with the
longest match is taken.  Which of them can match is told by the first characters
(`Kind.recognise?_bang`, `recognise?_slash`, `recognise?_letter`, `recognise?_text`): all but one
match nothing, and what that one finds is what the rule cuts off.  For an opening tag that takes an
argument, since the rule goes from character to character and remembers the open quote, and the
pattern is a row of items (`Kind.matches_tag`).

So every lexeme is a match that is recognised, or the first piece of a text where nothing is
(`read_of_next?`).
-/
import HtmlCompose.Markup.Cursor
import HtmlCompose.Proofs.Markup.Faults
import HtmlCompose.Proofs.Text.Pattern

namespace HtmlCompose
namespace Markup
namespace Lexeme

open Text (Pattern)
open Text.Pattern (matches_alt matches_seq matches_seq_char matches_seq_one matches_upTo
  matches_empty longest?_upTo longest?_star_noneOf longest?_eq_some_iff longest?_eq_none_iff
  longestOf? longestOf?_eq_none of_longestOf?)

variable {a b s x y rest : List Char} {c : Char}

namespace Kind

/-- Something quoted has its quote at both ends and nowhere between. -/
theorem matches_quoted {quote : Char} :
    (quoted quote).Matches x ↔ ∃ s, quote ∉ s ∧ x = quote :: (s ++ [quote]) := by
  rw [quoted, Pattern.all, matches_seq_char]
  simp only [matches_upTo]
  constructor
  · rintro ⟨_, rfl, s, hs, rfl⟩
    exact ⟨s, hs, rfl⟩
  · rintro ⟨s, hs, rfl⟩
    exact ⟨s ++ [quote], rfl, s, hs, rfl⟩

/-- What stands in an opening tag: a character that neither quotes nor ends, or something quoted. -/
theorem matches_tagItem : tagItem.Matches x ↔ (∃ c, isUnquoting c = true ∧ x = [c]) ∨
    ∃ quote s, (quote = '"' ∨ quote = '\'') ∧ quote ∉ s ∧ x = quote :: (s ++ [quote]) := by
  rw [tagItem, matches_alt, matches_alt, matches_quoted, matches_quoted]
  simp [Pattern.noneOf, isUnquoting, or_and_right, exists_or, and_assoc]

/-- The body of a tag goes on over an item. -/
theorem tagBody_item (h : tagItem.Matches x) (t : List Char) :
    tagBody none (x ++ t) = (tagBody none t).map fun (a, b) => (x ++ a, b) := by
  rcases matches_tagItem.1 h with ⟨c, hc, rfl⟩ | ⟨quote, s, hquote, hs, rfl⟩
  · exact tagBody_unquoting (List.forall_mem_singleton.2 hc) t
  · simpa using tagBody_quoted hquote hs t

/-- The body of a tag goes on over any number of items. -/
theorem tagBody_items (h : (Pattern.star tagItem).Matches x) (t : List Char) :
    tagBody none (x ++ t) = (tagBody none t).map fun (a, b) => (x ++ a, b) := by
  generalize hp : Pattern.star tagItem = p at h
  induction h with
  | stop => simp
  | @more p y z hy hz _ ih =>
    obtain rfl := Pattern.star.inj hp
    rw [List.append_assoc, tagBody_item hy, ih rfl, Option.map_map]
    simp [Function.comp_def]
  | _ => cases hp

/-- A tag that ends is made of items up to its `>`, also behind a quote that is open. -/
theorem exists_items :
    (∀ a, tagBody none s = some (a, b) → ∃ y, a = y ++ ['>'] ∧ (Pattern.star tagItem).Matches y) ∧
      ∀ quote a, quote = '"' ∨ quote = '\'' → tagBody (some quote) s = some (a, b) →
        ∃ x y, quote ∉ x ∧ a = x ++ quote :: (y ++ ['>']) ∧ (Pattern.star tagItem).Matches y := by
  -- an open quote is a matter of the second part, what stands behind it again of the first
  induction s with
  | nil => exact ⟨nofun, nofun⟩
  | cons c s ih =>
    constructor
    · intro a h
      rw [tagBody] at h
      split at h
      · rename_i hc
        obtain ⟨rfl, -⟩ := Prod.mk.inj (Option.some.inj h)
        exact ⟨[], by rw [hc]; rfl, .stop⟩
      rename_i hc
      split at h <;> rename_i hquote <;>
        obtain ⟨⟨a', b'⟩, htail, heq⟩ := Option.map_eq_some_iff.1 h <;>
        obtain ⟨rfl, rfl⟩ := Prod.mk.inj heq
      · obtain ⟨x, y, hx, rfl, hy⟩ := ih.2 c a' hquote htail
        have hitem : tagItem.Matches (c :: (x ++ [c])) :=
          matches_tagItem.2 (.inr ⟨c, x, hquote, hx, rfl⟩)
        exact ⟨c :: (x ++ [c]) ++ y, by simp, .more hitem hy⟩
      · obtain ⟨y, rfl, hy⟩ := ih.1 a' htail
        have hitem : tagItem.Matches [c] :=
          matches_tagItem.2 (.inl ⟨c, by simp [isUnquoting, hc, not_or.1 hquote], rfl⟩)
        exact ⟨c :: y, rfl, .more hitem hy⟩
    · intro quote a hquote h
      rw [tagBody] at h
      obtain ⟨⟨a', b'⟩, htail, heq⟩ := Option.map_eq_some_iff.1 h
      obtain ⟨rfl, rfl⟩ := Prod.mk.inj heq
      split at htail <;> rename_i hc
      · obtain ⟨y, rfl, hy⟩ := ih.1 a' htail
        exact ⟨[], y, List.not_mem_nil, by rw [hc]; rfl, hy⟩
      · obtain ⟨x, y, hx, rfl, hy⟩ := ih.2 quote a' hquote htail
        exact ⟨c :: x, y, by simp [Ne.symm hc, hx], rfl, hy⟩

/-- **What an opening tag goes on with**, told by the pattern and by the quotes that are open. -/
theorem matches_tag : (Pattern.all [.star tagItem, .char '>']).Matches x ↔
    tagBody none x = some (x, []) := by
  rw [Pattern.all, matches_seq]
  simp only [Pattern.all, matches_seq_char, matches_empty]
  constructor
  · rintro ⟨y, _, rfl, hy, _, rfl, rfl⟩
    rw [tagBody_items hy]
    rfl
  · intro h
    obtain ⟨y, rfl, hy⟩ := exists_items.1 x h
    exact ⟨y, ['>'], rfl, hy, [], rfl, rfl⟩

/-- **The longest match of a tag's pattern is its body.** -/
theorem longest?_tag (s : List Char) :
    (Pattern.all [.star tagItem, .char '>']).longest? s = tagBody none s := by
  rcases htag : tagBody none s with _ | ⟨body, rest⟩
  · refine longest?_eq_none_iff.2 ?_
    rintro y hy ⟨r, rfl⟩
    rw [tagBody_append (matches_tag.1 hy)] at htag
    cases htag
  · have hbody := tagBody_behind htag []
    rw [List.append_nil] at hbody
    refine longest?_eq_some_iff.2 ⟨tagBody_eq_some htag, matches_tag.2 hbody, ?_⟩
    rintro y hy ⟨r, rfl⟩
    rw [tagBody_append (matches_tag.1 hy)] at htag
    rw [(Prod.mk.inj (Option.some.inj htag)).1]

/-! ### All patterns at once -/

/-- A start of a text that the pattern of the kind matches, and no pattern matches a longer one. -/
def Longest (kind : Kind) (x s : List Char) : Prop :=
  kind.pattern.Matches x ∧ x <+: s ∧
    ∀ k : Kind, ∀ y, k.pattern.Matches y → y <+: s → y.length ≤ x.length

/-- A match starts with a `<`, unless it is text. -/
theorem head_of_matches {kind : Kind} (h : kind.pattern.Matches x) (hkind : kind ≠ .text) :
    x.head? = some '<' := by
  cases kind with
  | text => exact absurd rfl hkind
  | _ =>
    rw [pattern, Pattern.all, matches_seq_char] at h
    obtain ⟨y, rfl, -⟩ := h
    rfl

/-- A text does not start with `<`. -/
theorem head_of_matches_text (h : text.pattern.Matches x) : x.head? ≠ some '<' := by
  rw [pattern, Pattern.all, Pattern.noneOf, matches_seq_one] at h
  obtain ⟨c, y, hc, rfl, -⟩ := h
  simpa using hc

/-- Every kind of lexeme has its pattern in the table. -/
theorem mem_patterns (kind : Kind) : (kind, kind.pattern) ∈ patterns := by
  cases kind <;> simp [patterns]

/-- What is recognised is the longest match. -/
theorem of_recognise? {kind : Kind} (h : recognise? s = some (kind, x, rest)) :
    s = x ++ rest ∧ kind.Longest x s := by
  obtain ⟨⟨p, hp, hfound⟩, hmax⟩ := of_longestOf? h
  obtain ⟨k, -, heq⟩ := List.mem_map.1 hp
  obtain ⟨rfl, rfl⟩ := Prod.mk.inj heq
  obtain ⟨hs, hx, -⟩ := longest?_eq_some_iff.1 hfound
  refine ⟨hs, hx, ⟨rest, hs.symm⟩, fun k' y hy hstarts => ?_⟩
  obtain ⟨r, hr⟩ := hstarts
  obtain ⟨y', r', hfound', hlonger⟩ := Text.Pattern.exists_longest? hy r
  exact hlonger.length_le.trans (hmax _ k'.mem_patterns y' r' (hr ▸ hfound'))

/-- Where nothing is recognised, no pattern matches a beginning. -/
theorem not_prefix_of_recognise?_eq_none (h : recognise? s = none) (kind : Kind)
    (hy : kind.pattern.Matches y) : ¬y <+: s :=
  longest?_eq_none_iff.1 (longestOf?_eq_none.1 h _ kind.mem_patterns) y hy

/-- No text matches two patterns: the first characters tell them apart. -/
theorem eq_of_matches {k kind : Kind} (hk : k.pattern.Matches x) (hkind : kind.pattern.Matches x) :
    k = kind := by
  have halpha (c : Char) (hc : c.isAlpha = true) : c ≠ '!' ∧ c ≠ '/' :=
    ⟨ne_bang_of_isAlpha hc, by rintro rfl; cases hc⟩
  cases k <;> cases kind <;>
    simp only [pattern, Pattern.all, Pattern.noneOf, matches_seq_char, matches_seq_one]
      at hk hkind <;>
    grind

/-- **The longest match is recognised, and nothing else.**  So it does not matter in which order the
patterns are tried. -/
theorem recognise?_eq_some_iff {kind : Kind} :
    recognise? s = some (kind, x, rest) ↔ s = x ++ rest ∧ kind.Longest x s := by
  refine ⟨of_recognise?, ?_⟩
  rintro ⟨hs, hx, hstarts, hmax⟩
  rcases hrec : recognise? s with _ | ⟨k, y, r⟩
  · exact absurd hstarts (not_prefix_of_recognise?_eq_none hrec kind hx)
  · obtain ⟨hs', hy, hystarts, hymax⟩ := of_recognise? hrec
    have hlength : x.length = y.length :=
      Nat.le_antisymm (hymax kind x hx hstarts) (hmax k y hy hystarts)
    obtain ⟨rfl, rfl⟩ := List.append_inj (hs.symm.trans hs') hlength
    rw [eq_of_matches hy hx]

/-- If all patterns but one match nothing, what that one matches is recognised. -/
theorem recognise?_eq (kind : Kind) (h : ∀ k, k ≠ kind → k.pattern.longest? s = none) :
    recognise? s = (kind.pattern.longest? s).map fun (x, rest) => (kind, x, rest) := by
  rw [recognise?, patterns]
  rcases hfound : kind.pattern.longest? s with _ | ⟨x, rest⟩ <;> cases kind <;>
    simp [longestOf?, h, hfound]

/-- `<!--` is recognised as the opening of a comment, whatever stands behind it. -/
theorem recognise?_comment (rest : List Char) :
    recognise? ('<' :: '!' :: '-' :: '-' :: rest) =
      some (.comment, ['<', '!', '-', '-'], rest) := by
  rw [recognise?_eq .comment fun k hk => by cases k <;> simp [pattern] at hk ⊢]
  simp [pattern]

/-- `<!` before anything but a `-` is recognised as a declaration up to the next `>`. -/
theorem recognise?_bang (hc : c ≠ '-') (rest : List Char) :
    recognise? ('<' :: '!' :: c :: rest) =
      (Text.cutAt ['>'] rest).map fun (body, after) =>
        (.doctype, '<' :: '!' :: c :: (body ++ ['>']), after) := by
  rw [recognise?_eq .doctype fun k hk => by cases k <;> simp [pattern, hc] at hk ⊢]
  simp [pattern, hc, longest?_upTo, Function.comp_def]

/-- `</` before a letter is recognised as a closing tag up to the next `>`. -/
theorem recognise?_slash (hc : c.isAlpha = true) (rest : List Char) :
    recognise? ('<' :: '/' :: c :: rest) =
      (Text.cutAt ['>'] rest).map fun (body, after) =>
        (.closeTag, '<' :: '/' :: c :: (body ++ ['>']), after) := by
  rw [recognise?_eq .closeTag fun k hk => by cases k <;> simp [pattern] at hk ⊢]
  simp [pattern, hc, longest?_upTo, Function.comp_def]

/-- `<` before a letter is recognised as an opening tag with its body. -/
theorem recognise?_letter (hc : c.isAlpha = true) (rest : List Char) :
    recognise? ('<' :: c :: rest) =
      (tagBody none rest).map fun (body, after) => (.openTag, '<' :: c :: body, after) := by
  have hbang := ne_bang_of_isAlpha hc
  have hslash : c ≠ '/' := by
    rintro rfl
    cases hc
  rw [recognise?_eq .openTag fun k hk => by cases k <;> simp [pattern, hbang, hslash] at hk ⊢]
  simp [pattern, hc, longest?_tag, Function.comp_def]

/-- Anything but a `<` is recognised as text up to the next `<`. -/
theorem recognise?_text (hc : c ≠ '<') (rest : List Char) :
    recognise? (c :: rest) =
      some (.text, c :: rest.takeWhile (· != '<'), rest.dropWhile (· != '<')) := by
  rw [recognise?_eq .text fun k hk => by cases k <;> simp [pattern, hc] at hk ⊢]
  simp [pattern, hc, longest?_star_noneOf]

/-- Where no pattern matches, nothing is recognised. -/
theorem recognise?_eq_none (h : ∀ k : Kind, k.pattern.longest? s = none) : recognise? s = none := by
  refine longestOf?_eq_none.2 fun q hq => ?_
  obtain ⟨k, -, rfl⟩ := List.mem_map.1 hq
  exact h k

/-- A `<` that begins nothing is not recognised. -/
theorem recognise?_stray (h : begins ('<' :: rest) = false)
    (hcomment : ∀ r, rest ≠ '!' :: '-' :: '-' :: r) : recognise? ('<' :: rest) = none := by
  refine recognise?_eq_none fun k => ?_
  rcases rest with _ | ⟨c, rest⟩
  · cases k <;> simp [pattern]
  by_cases hbang : c = '!'
  · subst hbang
    rcases rest with _ | ⟨d, rest⟩
    · cases k <;> simp [pattern]
    obtain rfl : d = '-' := by simpa [begins] using h
    rcases rest with _ | ⟨e, rest⟩
    · cases k <;> simp [pattern]
    have he : e ≠ '-' := fun heq => hcomment rest (by rw [heq])
    cases k <;> simp [pattern, he]
  by_cases hslash : c = '/'
  · subst hslash
    rcases rest with _ | ⟨d, rest⟩
    · cases k <;> simp [pattern]
    have hd : d.isAlpha = false := h
    cases k <;> simp [pattern, hd]
  have hc : c.isAlpha = false := by
    rw [begins] at h
    · exact h
    · exact fun _ _ heq => absurd heq hbang
    · exact fun _ _ heq => absurd heq hslash
  cases k <;> simp [pattern, hc, hbang, hslash]

end Kind

/-- Markup begins with a `<`. -/
theorem head_of_begins (h : begins s = true) : s.head? = some '<' := by
  unfold begins at h
  split at h
  · rfl
  · rfl
  · rfl
  · cases h

/-! ### Lexemes -/

/-- How a lexeme comes about in front of what stands behind it. -/
inductive Read : Lexeme → List Char → Prop where
  | comment {body rest : List Char} : Text.occurs commentEnd body = false →
    Read ⟨writeComment (String.ofList body), some (.comment (String.ofList body))⟩ rest
  | endless {rest : List Char} : Text.occurs commentEnd rest = false →
    Read ⟨['<', '!', '-', '-'], none⟩ rest
  | doctype {x rest : List Char} : Kind.recognise? (x ++ rest) = some (.doctype, x, rest) →
    Read ⟨x, some (.doctype (String.ofList x))⟩ rest
  | closeTag {name rest : List Char} :
    Kind.recognise? ('<' :: '/' :: (name ++ ['>']) ++ rest) =
      some (.closeTag, '<' :: '/' :: (name ++ ['>']), rest) →
    Read ⟨'<' :: '/' :: (name ++ ['>']), some (.closeTag (String.ofList (Text.trim name)))⟩ rest
  | openTag {x rest : List Char} : Kind.recognise? (x ++ rest) = some (.openTag, x, rest) →
    Read ⟨x, some (.openTag (String.ofList x))⟩ rest
  | text {x rest : List Char} : Kind.recognise? (x ++ rest) = some (.text, x, rest) →
    Read ⟨x, some (.text (String.ofList x))⟩ rest
  /-- a `<` that begins nothing -/
  | stray {rest : List Char} : Kind.recognise? ('<' :: rest) = none → begins ('<' :: rest) = false →
    Read ⟨['<'], none⟩ rest
  /-- a declaration or a tag without a `>` -/
  | lost {x : List Char} : Kind.recognise? x = none → begins x = true → Read ⟨x, none⟩ []

/-- **Lexemes are longest matches of the patterns.** -/
theorem read_of_next? {l : Lexeme} (h : next? s = some (l, rest)) : Read l rest := by
  unfold next? at h
  split at h
  · cases h
  · split at h <;> rename_i hcut <;> obtain ⟨rfl, rfl⟩ := Prod.mk.inj (Option.some.inj h)
    · have hbody := Text.occurs_of_cutAt (List.cons_ne_nil _ _) hcut
      simpa [writeComment] using @Read.comment _ _ hbody
    · exact .endless (Text.occurs_of_cutAt_eq_none hcut)
  · rename_i c r hcomment
    split at h
    · rename_i hc
      obtain ⟨rfl, rfl⟩ := Prod.mk.inj (Option.some.inj h)
      subst hc
      have hbegins : begins ('<' :: '!' :: '-' :: r) = false := rfl
      exact .stray (Kind.recognise?_stray hbegins (by simpa using hcomment)) hbegins
    · rename_i hc
      have hrec := Kind.recognise?_bang hc r
      split at h <;> rename_i hcut <;> obtain ⟨rfl, rfl⟩ := Prod.mk.inj (Option.some.inj h) <;>
        rw [hcut] at hrec
      · refine .doctype ?_
        simpa [Text.cutAt_eq_some hcut] using hrec
      · exact .lost hrec (by simpa [begins] using hc)
  · rename_i c r
    split at h
    · rename_i hc
      have hrec := Kind.recognise?_slash hc r
      split at h <;> rename_i hcut <;> obtain ⟨rfl, rfl⟩ := Prod.mk.inj (Option.some.inj h) <;>
        rw [hcut] at hrec
      · refine @Read.closeTag (c :: _) _ ?_
        simpa [Text.cutAt_eq_some hcut] using hrec
      · exact .lost hrec hc
    · rename_i hc
      obtain ⟨rfl, rfl⟩ := Prod.mk.inj (Option.some.inj h)
      have hbegins : begins ('<' :: '/' :: c :: r) = false := by simpa [begins] using hc
      exact .stray (Kind.recognise?_stray hbegins (by simp)) hbegins
  · rename_i c r _ hbang hslash
    split at h
    · rename_i hc
      have hrec := Kind.recognise?_letter hc r
      split at h <;> rename_i hbody <;> obtain ⟨rfl, rfl⟩ := Prod.mk.inj (Option.some.inj h) <;>
        rw [hbody] at hrec
      · refine .openTag ?_
        simpa [tagBody_eq_some hbody] using hrec
      · refine .lost hrec ?_
        rw [begins.eq_3 _ _ hbang hslash, hc]
    · rename_i hc
      obtain ⟨rfl, rfl⟩ := Prod.mk.inj (Option.some.inj h)
      have hbegins : begins ('<' :: c :: r) = false := by
        rw [begins.eq_3 _ _ hbang hslash]
        exact Bool.eq_false_of_not_eq_true hc
      refine .stray (Kind.recognise?_stray hbegins fun r' heq => ?_) hbegins
      exact hbang _ _ (List.cons.inj heq).1 (List.cons.inj heq).2
  · obtain ⟨rfl, rfl⟩ := Prod.mk.inj (Option.some.inj h)
    exact .stray (Kind.recognise?_stray rfl fun _ heq => by cases heq) rfl
  · rename_i c r _ _ _ hopen hend
    obtain ⟨rfl, rfl⟩ := Prod.mk.inj (Option.some.inj h)
    have hc : c ≠ '<' := by
      rintro rfl
      rcases r with _ | ⟨d, r⟩
      · exact hend rfl rfl
      · exact hopen d r rfl rfl
    refine .text ?_
    simpa [List.takeWhile_append_dropWhile] using Kind.recognise?_text hc r

end Lexeme
end Markup
end HtmlCompose
