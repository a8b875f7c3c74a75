/-
# The longest match of a pattern

What a pattern matches is told by a relation, one rule per kind of pattern (`Pattern.Matches`).
Matching character by character agrees with it because what a pattern asks of the text behind a
character is just that (`matches_after`).  So the longest match that is found is one, and no other
start of the text that the pattern matches reaches further (`longest?_eq_some_iff`); if none is
found, there is none (`longest?_eq_none_iff`).  The same goes for several patterns at once
(`of_longestOf?`, `longestOf?_eq_none`).
-/
import HtmlCompose.Proofs.Text.Search
import HtmlCompose.Text.Pattern
import Mathlib.Data.List.Infix

namespace HtmlCompose
namespace Text
namespace Pattern

/-- A pattern matches a whole text. -/
inductive Matches : Pattern → List Char → Prop where
  | empty : Matches empty []
  | one {p : Char → Bool} {c : Char} : p c = true → Matches (one p) [c]
  | seq {a b : Pattern} {x y : List Char} :
    Matches a x → Matches b y → Matches (seq a b) (x ++ y)
  | left {a b : Pattern} {x : List Char} : Matches a x → Matches (alt a b) x
  | right {a b : Pattern} {x : List Char} : Matches b x → Matches (alt a b) x
  | stop {a : Pattern} : Matches (star a) []
  | more {a : Pattern} {x y : List Char} :
    Matches a x → Matches (star a) y → Matches (star a) (x ++ y)

variable {a b p : Pattern} {c : Char} {s x y rest : List Char}

/-! ### What the kinds of patterns match -/

@[simp] theorem not_matches_never : ¬never.Matches x := nofun

@[simp] theorem matches_empty : empty.Matches x ↔ x = [] :=
  ⟨fun h => by cases h; rfl, fun h => h ▸ .empty⟩

@[simp] theorem matches_one {kind : Char → Bool} :
    (one kind).Matches x ↔ ∃ c, kind c = true ∧ x = [c] :=
  ⟨fun h => by cases h with | one hc => exact ⟨_, hc, rfl⟩, fun ⟨_, hc, hx⟩ => hx ▸ .one hc⟩

/-- A sequence matches a match of its first part and one of its second. -/
theorem matches_seq : (seq a b).Matches x ↔ ∃ y z, x = y ++ z ∧ a.Matches y ∧ b.Matches z :=
  ⟨fun h => by cases h with | seq hy hz => exact ⟨_, _, rfl, hy, hz⟩,
    fun ⟨_, _, hx, hy, hz⟩ => hx ▸ .seq hy hz⟩

@[simp] theorem matches_alt : (alt a b).Matches x ↔ a.Matches x ∨ b.Matches x :=
  ⟨fun h => by cases h with | left h => exact .inl h | right h => exact .inr h,
    fun h => h.elim .left .right⟩

/-- A row of matches that starts with a character starts with a match that does. -/
theorem matches_star_cons :
    (star a).Matches (c :: x) ↔ ∃ y z, x = y ++ z ∧ a.Matches (c :: y) ∧ (star a).Matches z := by
  constructor
  · intro h
    generalize hp : star a = p at h
    generalize hx : c :: x = s at h
    induction h with
    | stop => cases hx
    | @more a' y z hy hz _ ih =>
      obtain rfl := star.inj hp
      rcases y with _ | ⟨d, y⟩
      · exact ih rfl hx
      · obtain ⟨rfl, rfl⟩ := List.cons.inj hx
        exact ⟨y, z, rfl, hy, hz⟩
    | _ => cases hp
  · rintro ⟨y, z, rfl, hy, hz⟩
    exact .more hy hz

/-- A character and what matches the rest of a sequence. -/
theorem matches_seq_one {kind : Char → Bool} :
    (seq (one kind) b).Matches x ↔ ∃ c y, kind c = true ∧ x = c :: y ∧ b.Matches y := by
  rw [matches_seq]
  constructor
  · rintro ⟨_, y, rfl, hone, hy⟩
    obtain ⟨c, hc, rfl⟩ := matches_one.1 hone
    exact ⟨c, y, hc, rfl, hy⟩
  · rintro ⟨c, y, hc, rfl, hy⟩
    exact ⟨[c], y, rfl, .one hc, hy⟩

/-- Any number of characters of a class. -/
theorem matches_star_one {kind : Char → Bool} :
    (star (one kind)).Matches x ↔ ∀ c ∈ x, kind c = true := by
  induction x with
  | nil => simpa using Matches.stop
  | cons c x ih =>
    rw [matches_star_cons, List.forall_mem_cons, ← ih]
    constructor
    · rintro ⟨y, z, rfl, hc, hz⟩
      obtain ⟨d, hd, heq⟩ := matches_one.1 hc
      obtain ⟨rfl, rfl⟩ := List.cons.inj heq
      exact ⟨hd, hz⟩
    · rintro ⟨hc, hx⟩
      exact ⟨[], x, rfl, .one hc, hx⟩

/-! ### Matching character by character -/

/-- A pattern asks for nothing more if it matches the empty text. -/
theorem nullable_iff : p.nullable = true ↔ p.Matches [] := by
  induction p with
  | never => simp [nullable]
  | empty => simp [nullable]
  | one => simp [nullable]
  | seq a b iha ihb =>
    rw [nullable, Bool.and_eq_true, iha, ihb, matches_seq]
    constructor
    · exact fun h => ⟨[], [], rfl, h⟩
    · rintro ⟨y, z, hnil, h⟩
      obtain ⟨rfl, rfl⟩ := List.append_eq_nil_iff.1 hnil.symm
      exact h
  | alt a b iha ihb => rw [nullable, Bool.or_eq_true, iha, ihb, matches_alt]
  | star => simpa [nullable] using Matches.stop

/-- **What a pattern asks of the text behind a character.** -/
theorem matches_after : (p.after c).Matches x ↔ p.Matches (c :: x) := by
  induction p generalizing x with
  | never => simp [after]
  | empty => simp [after]
  | one kind =>
    rw [after, matches_one]
    split
    · rename_i hc
      simp [hc]
    · rename_i hc
      simp [hc]
  | seq a b iha ihb =>
    -- the character belongs to the first part, unless that part asks for nothing
    have hsplit : (seq a b).Matches (c :: x) ↔
        (seq (a.after c) b).Matches x ∨ a.nullable = true ∧ (b.after c).Matches x := by
      simp only [matches_seq, iha, ihb, nullable_iff]
      constructor
      · rintro ⟨_ | ⟨d, y⟩, z, heq, hy, hz⟩
        · exact .inr ⟨hy, by rwa [heq]⟩
        · obtain ⟨rfl, rfl⟩ := List.cons.inj heq
          exact .inl ⟨y, z, rfl, hy, hz⟩
      · rintro (⟨y, z, rfl, hy, hz⟩ | ⟨hnil, hx⟩)
        · exact ⟨c :: y, z, rfl, hy, hz⟩
        · exact ⟨[], c :: x, rfl, hnil, hx⟩
    rw [hsplit, after]
    split
    · rename_i hnil
      simp [hnil]
    · rename_i hnil
      simp [hnil]
  | alt a b iha ihb => rw [after, matches_alt, matches_alt, iha, ihb]
  | star a iha =>
    rw [after, matches_seq, matches_star_cons]
    simp only [iha]

/-- Where matching may stop, the match is empty. -/
theorem of_nullable
    (h : (if p.nullable then some (([] : List Char), s) else none) = some (x, rest)) :
    s = x ++ rest ∧ p.Matches x := by
  split at h
  · rename_i hnil
    obtain ⟨rfl, rfl⟩ := Prod.mk.inj (Option.some.inj h)
    exact ⟨rfl, nullable_iff.1 hnil⟩
  · cases h

/-- What is found is a start of the text that the pattern matches. -/
theorem of_longest? (h : p.longest? s = some (x, rest)) : s = x ++ rest ∧ p.Matches x := by
  induction s generalizing p x with
  | nil => exact of_nullable h
  | cons c s ih =>
    rw [longest?] at h
    split at h
    · rename_i y rest' hlonger
      obtain ⟨rfl, rfl⟩ := Prod.mk.inj (Option.some.inj h)
      obtain ⟨rfl, hy⟩ := ih hlonger
      exact ⟨rfl, matches_after.1 hy⟩
    · exact of_nullable h

/-- Whatever start of a text the pattern matches, one is found that reaches as far. -/
theorem exists_longest? (hy : p.Matches y) (r : List Char) :
    ∃ x rest, p.longest? (y ++ r) = some (x, rest) ∧ y <+: x := by
  induction y generalizing p with
  | nil =>
    have hnil := nullable_iff.2 hy
    rcases r with _ | ⟨c, r⟩
    · exact ⟨[], [], by rw [List.append_nil, longest?, if_pos hnil], List.nil_prefix⟩
    · rw [List.nil_append, longest?, if_pos hnil]
      split
      · exact ⟨_, _, rfl, List.nil_prefix⟩
      · exact ⟨_, _, rfl, List.nil_prefix⟩
  | cons c y ih =>
    obtain ⟨x, rest, hfound, hstarts⟩ := ih (matches_after.2 hy)
    refine ⟨c :: x, rest, ?_, (List.cons_prefix_cons ..).2 ⟨rfl, hstarts⟩⟩
    rw [List.cons_append, longest?, hfound]

/-- **The longest match.** -/
theorem longest?_eq_some_iff : p.longest? s = some (x, rest) ↔
    s = x ++ rest ∧ p.Matches x ∧ ∀ y, p.Matches y → y <+: s → y.length ≤ x.length := by
  constructor
  · intro h
    refine ⟨(of_longest? h).1, (of_longest? h).2, ?_⟩
    rintro y hy ⟨r, rfl⟩
    obtain ⟨x', rest', hfound, hstarts⟩ := exists_longest? hy r
    obtain ⟨rfl, -⟩ := Prod.mk.inj (Option.some.inj (h.symm.trans hfound))
    exact hstarts.length_le
  · rintro ⟨rfl, hx, hmax⟩
    obtain ⟨x', rest', hfound, hstarts⟩ := exists_longest? hx rest
    obtain ⟨hsplit, hx'⟩ := of_longest? hfound
    obtain rfl := hstarts.eq_of_length_le (hmax x' hx' ⟨rest', hsplit.symm⟩)
    rw [hfound, List.append_cancel_left hsplit]

/-- **No match is found** if and only if the pattern matches no start of the text. -/
theorem longest?_eq_none_iff : p.longest? s = none ↔ ∀ y, p.Matches y → ¬y <+: s := by
  constructor
  · rintro h y hy ⟨r, rfl⟩
    obtain ⟨x, rest, hfound, -⟩ := exists_longest? hy r
    rw [h] at hfound
    cases hfound
  · intro h
    rcases hfound : p.longest? s with _ | ⟨x, rest⟩
    · rfl
    · obtain ⟨hs, hx⟩ := of_longest? hfound
      exact absurd ⟨rest, hs.symm⟩ (h x hx)

/-- Patterns that match the same texts find the same. -/
theorem longest?_congr (h : ∀ x, a.Matches x ↔ b.Matches x) (s : List Char) :
    a.longest? s = b.longest? s := by
  ext ⟨x, rest⟩
  simp only [longest?_eq_some_iff, h]

/-- The pattern that matches nothing finds nothing. -/
@[simp] theorem longest?_never (s : List Char) : never.longest? s = none :=
  longest?_eq_none_iff.2 fun _ h => absurd h not_matches_never

/-- The empty pattern finds the empty start. -/
@[simp] theorem longest?_empty (s : List Char) : empty.longest? s = some ([], s) := by
  refine longest?_eq_some_iff.2 ⟨rfl, .empty, fun y hy _ => ?_⟩
  rw [matches_empty.1 hy]

/-- A sequence that starts with a character of a class finds it, and goes on behind it. -/
theorem longest?_seq_one {kind : Char → Bool} (c : Char) (s : List Char) :
    (seq (one kind) b).longest? (c :: s) =
      if kind c then (b.longest? s).map fun (x, rest) => (c :: x, rest) else none := by
  have hafter : ((seq (one kind) b).after c).longest? s =
      (if kind c then b else never).longest? s := by
    refine longest?_congr (fun x => ?_) s
    rw [matches_after, matches_seq_one]
    split <;> rename_i hc <;> simp [hc]
  rw [longest?, hafter]
  by_cases hc : kind c = true
  · rw [if_pos hc, if_pos hc]
    cases b.longest? s <;> rfl
  · rw [if_neg hc, if_neg hc, longest?_never]
    rfl

/-! ### Several patterns -/

section Several

variable {α : Type} {name : α} {patterns : List (α × Pattern)}

/-- Several patterns find nothing if none of them does. -/
theorem longestOf?_eq_none :
    longestOf? s patterns = none ↔ ∀ q ∈ patterns, q.2.longest? s = none := by
  induction patterns with
  | nil => simp [longestOf?]
  | cons q patterns ih =>
    rw [List.forall_mem_cons, ← ih, longestOf?]
    split
    · rename_i hq _
      split <;> simp [hq]
    · rename_i hq _
      simp [hq]
    · rename_i hq
      simp [hq]

/-- The match that is found is the longest one of its pattern, and no other pattern has a longer
one. -/
theorem of_longestOf? (h : longestOf? s patterns = some (name, x, rest)) :
    (∃ p, (name, p) ∈ patterns ∧ p.longest? s = some (x, rest)) ∧
      ∀ q ∈ patterns, ∀ y r, q.2.longest? s = some (y, r) → y.length ≤ x.length := by
  induction patterns generalizing name x rest with
  | nil => cases h
  | cons q patterns ih =>
    have hown {x' rest' : List Char} (hq : q.2.longest? s = some (x', rest')) (y r : List Char)
        (hy : q.2.longest? s = some (y, r)) : y.length = x'.length := by
      rw [(Prod.mk.inj (Option.some.inj (hq.symm.trans hy))).1]
    rw [longestOf?] at h
    split at h
    · rename_i x' rest' name' y rest'' hq hothers
      obtain ⟨⟨p, hp, hfound⟩, hmax⟩ := ih hothers
      split at h
      · rename_i hle
        cases h
        refine ⟨⟨q.2, List.mem_cons_self, hq⟩, List.forall_mem_cons.2 ⟨fun y r hy => ?_, ?_⟩⟩
        · exact (hown hq y r hy).le
        · exact fun q' hq' y r hy => (hmax q' hq' y r hy).trans hle
      · rename_i hlonger
        cases h
        refine ⟨⟨p, List.mem_cons_of_mem _ hp, hfound⟩, List.forall_mem_cons.2 ⟨?_, hmax⟩⟩
        intro y r hy
        have hlength := hown hq y r hy
        omega
    · rename_i x' rest' hq hothers
      cases h
      refine ⟨⟨q.2, List.mem_cons_self, hq⟩, List.forall_mem_cons.2 ⟨fun y r hy => ?_, ?_⟩⟩
      · exact (hown hq y r hy).le
      · intro q' hq' y r hy
        cases (longestOf?_eq_none.1 hothers q' hq').symm.trans hy
    · rename_i hq
      obtain ⟨⟨p, hp, hfound⟩, hmax⟩ := ih h
      refine ⟨⟨p, List.mem_cons_of_mem _ hp, hfound⟩, List.forall_mem_cons.2 ⟨?_, hmax⟩⟩
      intro y r hy
      cases hq.symm.trans hy

end Several

/-! ### Patterns in a row -/

/-- A sequence that starts with a character matches that character and what follows. -/
theorem matches_seq_char : (seq (char c) b).Matches x ↔ ∃ y, x = c :: y ∧ b.Matches y := by
  rw [char, matches_seq_one]
  simp

/-- Any number of characters other than those given. -/
theorem matches_star_noneOf {cs : List Char} :
    (star (noneOf cs)).Matches x ↔ ∀ c ∈ x, c ∉ cs := by
  simp [noneOf, matches_star_one]

/-- Anything up to the first one of a character. -/
theorem matches_upTo :
    (all [star (noneOf [c]), char c]).Matches x ↔ ∃ body, c ∉ body ∧ x = body ++ [c] := by
  rw [all, matches_seq]
  simp only [matches_star_noneOf, all, matches_seq_char, matches_empty]
  constructor
  · rintro ⟨y, z, rfl, hy, w, rfl, rfl⟩
    exact ⟨y, fun hc => hy c hc (List.mem_singleton_self c), rfl⟩
  · rintro ⟨body, hbody, rfl⟩
    refine ⟨body, [c], rfl, fun d hd heq => hbody ?_, [], rfl, rfl⟩
    rwa [← List.mem_singleton.1 heq]

section All

variable {ps : List Pattern} (d : Char)

@[simp] theorem longest?_all_nil (s : List Char) : (all []).longest? s = some ([], s) :=
  longest?_empty s

@[simp] theorem longest?_one_nil (kind : Char → Bool) : (all (one kind :: ps)).longest? [] = none :=
  rfl

@[simp] theorem longest?_char_nil : (all (char d :: ps)).longest? [] = none := rfl

@[simp] theorem longest?_noneOf_nil (cs : List Char) : (all (noneOf cs :: ps)).longest? [] = none :=
  rfl

/-- A row of patterns that starts with a character of a class finds it, and goes on behind it. -/
@[simp] theorem longest?_one_cons (kind : Char → Bool) (c : Char) (s : List Char) :
    (all (one kind :: ps)).longest? (c :: s) =
      if kind c then ((all ps).longest? s).map fun (x, rest) => (c :: x, rest) else none :=
  longest?_seq_one c s

/-- The same for a given character. -/
@[simp] theorem longest?_char_cons (c : Char) (s : List Char) :
    (all (char d :: ps)).longest? (c :: s) =
      if c = d then ((all ps).longest? s).map fun (x, rest) => (c :: x, rest) else none := by
  rw [char, longest?_one_cons]
  simp

/-- The same for a character other than those given. -/
@[simp] theorem longest?_noneOf_cons (cs : List Char) (c : Char) (s : List Char) :
    (all (noneOf cs :: ps)).longest? (c :: s) =
      if c ∉ cs then ((all ps).longest? s).map fun (x, rest) => (c :: x, rest) else none := by
  rw [noneOf, longest?_one_cons]
  simp

end All

/-- A run of characters other than one is matched as far as it goes. -/
theorem longest?_star_noneOf (c : Char) (s : List Char) : (all [star (noneOf [c])]).longest? s =
    some (s.takeWhile (· != c), s.dropWhile (· != c)) := by
  have hmatches (x : List Char) :
      (all [star (noneOf [c])]).Matches x ↔ ∀ d ∈ x, (d != c) = true := by
    simp [all, matches_seq, noneOf, matches_star_one]
  refine longest?_eq_some_iff.2 ⟨List.takeWhile_append_dropWhile.symm,
    (hmatches _).2 fun d hd => List.mem_takeWhile_imp (p := (· != c)) hd, ?_⟩
  rintro y hy ⟨r, rfl⟩
  rw [List.takeWhile_append_of_pos ((hmatches y).1 hy), List.length_append]
  exact Nat.le_add_right ..

/-- Anything up to a character is matched up to the first one. -/
theorem longest?_upTo (c : Char) (s : List Char) : (all [star (noneOf [c]), char c]).longest? s =
    (cutAt [c] s).map fun (body, rest) => (body ++ [c], rest) := by
  rcases hcut : cutAt [c] s with _ | ⟨body, rest⟩
  · have hs : c ∉ s := occurs_singleton.1 (occurs_of_cutAt_eq_none hcut)
    refine longest?_eq_none_iff.2 fun y hy hstarts => hs (hstarts.subset ?_)
    obtain ⟨body, -, rfl⟩ := matches_upTo.1 hy
    simp
  · have hbody : c ∉ body := occurs_singleton.1 (occurs_of_cutAt (List.cons_ne_nil _ _) hcut)
    refine longest?_eq_some_iff.2 ⟨cutAt_eq_some hcut, matches_upTo.2 ⟨body, hbody, rfl⟩, ?_⟩
    rintro y hy ⟨r, rfl⟩
    obtain ⟨body', hbody', rfl⟩ := matches_upTo.1 hy
    rw [List.append_assoc, List.singleton_append, cutAt_singleton hbody'] at hcut
    rw [(Prod.mk.inj (Option.some.inj hcut)).1]

end Pattern
end Text
end HtmlCompose
