/-
# Trees that reading makes

Reading takes nearly every source, but it does not make every tree.  Whatever the source
is, each node of the trees is as follows, inside raw text too (`parse_parsed`):

| node | holds of it |
| --- | --- |
| any | the row below it is tidy |
| element | its names are such as reading can find, no attribute is marked, and a void one is empty |
| comment | its body does not end early |
| declaration | it is one |

The invariant is one of the builder: what has been put into each open element is such a
row, and the open elements are such elements, none of them void (`Builder.Parsed`).  What
a lexeme can do to the builder is said once (`Takes`); it keeps the invariant
(`Takes.parsed`), because a token is formed as the lexeme tells (`Lexeme.next?_formed`).
-/
import HtmlCompose.Proofs.Markup.ReadBack

namespace HtmlCompose
namespace Markup

/-! ### Tokens -/

/-- A token is one that a source can hold. -/
def Token.Formed : Token → Prop
  | .comment body => Text.occurs commentEnd body.toList = false
  | .doctype s => isDeclaration s.toList = true
  | .openTag raw => ∃ c body, raw.toList = '<' :: c :: (body ++ ['>']) ∧ c.isAlpha = true
  | .closeTag _ | .text _ => True

namespace Lexeme

variable {s rest a b : List Char}

/-- A tag ends with this character, or goes on behind it. -/
theorem tagBody_cons {q : Option Char} {c : Char} (h : tagBody q (c :: s) = some (a, b)) :
    a = ['>'] ∨ ∃ q' a', tagBody q' s = some (a', b) ∧ a = c :: a' := by
  have hmap {q' : Option Char}
      (h : (tagBody q' s).map (fun found => (c :: found.1, found.2)) = some (a, b)) :
      ∃ q' a', tagBody q' s = some (a', b) ∧ a = c :: a' := by
    obtain ⟨⟨a', b'⟩, htail, heq⟩ := Option.map_eq_some_iff.1 h
    obtain ⟨rfl, rfl⟩ := Prod.mk.inj heq
    exact ⟨q', a', htail, rfl⟩
  rcases q with _ | q <;> rw [tagBody] at h
  · split at h
    · rename_i hc
      obtain ⟨rfl, -⟩ := Prod.mk.inj (Option.some.inj h)
      exact .inl (by rw [hc])
    · split at h
      · exact .inr (hmap h)
      · exact .inr (hmap h)
  · exact .inr (hmap h)

/-- What an opening tag is made of ends with its `>`. -/
theorem tagBody_ends {q : Option Char} (h : tagBody q s = some (a, b)) :
    ∃ body, a = body ++ ['>'] := by
  induction s generalizing q a with
  | nil => cases q <;> cases h
  | cons c s ih =>
    rcases tagBody_cons h with rfl | ⟨q', a', htail, rfl⟩
    · exact ⟨[], rfl⟩
    · obtain ⟨body, rfl⟩ := ih htail
      exact ⟨c :: body, rfl⟩

/-- **Every token of a source is formed.** -/
theorem next?_formed {l : Lexeme} (h : next? s = some (l, rest)) : ∀ t ∈ l.token, t.Formed := by
  unfold next? at h
  split at h
  · cases h
  · split at h <;> obtain ⟨rfl, -⟩ := Prod.mk.inj (Option.some.inj h)
    · rename_i hc
      rintro t ⟨rfl⟩
      rw [Token.Formed, String.toList_ofList]
      exact Text.occurs_of_cutAt (List.cons_ne_nil _ _) hc
    · exact nofun
  · split at h
    · obtain ⟨rfl, -⟩ := Prod.mk.inj (Option.some.inj h)
      exact nofun
    · split at h <;> obtain ⟨rfl, -⟩ := Prod.mk.inj (Option.some.inj h)
      · rename_i hdash _ _ _ hc
        rintro t ⟨rfl⟩
        have hbody := Text.occurs_singleton.1 (Text.occurs_of_cutAt (List.cons_ne_nil _ _) hc)
        rw [Token.Formed, String.toList_ofList]
        simp [isDeclaration, hdash, hbody]
      · exact nofun
  · split at h
    · split at h <;> obtain ⟨rfl, -⟩ := Prod.mk.inj (Option.some.inj h)
      · rintro t ⟨rfl⟩
        trivial
      · exact nofun
    · obtain ⟨rfl, -⟩ := Prod.mk.inj (Option.some.inj h)
      exact nofun
  · split at h
    · rename_i hc
      split at h <;> obtain ⟨rfl, -⟩ := Prod.mk.inj (Option.some.inj h)
      · rename_i hbody
        rintro t ⟨rfl⟩
        obtain ⟨body, rfl⟩ := tagBody_ends hbody
        rw [Token.Formed, String.toList_ofList]
        exact ⟨_, body, rfl, hc⟩
      · exact nofun
    · obtain ⟨rfl, -⟩ := Prod.mk.inj (Option.some.inj h)
      exact nofun
  · obtain ⟨rfl, -⟩ := Prod.mk.inj (Option.some.inj h)
    exact nofun
  · obtain ⟨rfl, -⟩ := Prod.mk.inj (Option.some.inj h)
    rintro t ⟨rfl⟩
    trivial

end Lexeme

/-! ### Elements of tokens -/

namespace OpenTag

/-- A letter stands in no gap between attributes. -/
theorem isGap_of_isAlpha {c : Char} (h : c.isAlpha = true) : isGap c = false := by
  rw [isGap, Bool.or_eq_false_iff, beq_eq_false_iff_ne]
  constructor
  · have hletter : (65 ≤ c.toNat ∧ c.toNat ≤ 90) ∨ (97 ≤ c.toNat ∧ c.toNat ≤ 122) := by
      simpa [Char.isAlpha, Char.isUpper, Char.isLower, UInt32.le_iff_toNat_le] using h
    simp only [Text.isBlank, Bool.or_eq_false_iff, Bool.and_eq_false_iff, decide_eq_false_iff_not,
      beq_eq_false_iff_ne]
    omega
  · rintro rfl
    revert h
    decide

/-- Attributes that are read have names, of characters that a name may have. -/
theorem attributes_names (selfClosing : Bool) (s : List Char) :
    ∀ x ∈ attributes selfClosing s,
      x.1.toList ≠ [] ∧ ∀ c ∈ x.1.toList, isNameChar c = true := by
  fun_induction attributes selfClosing s with
  | case1 => exact nofun
  | case2 c s hgap ih => exact ih
  | case3 c s hgap _ found rest hempty ih => exact ih
  | case4 c s hgap _ found rest hempty ih =>
    refine List.forall_mem_cons.2 ⟨⟨?_, fun d hd => ?_⟩, ih⟩
    · rw [String.toList_ofList]
      rintro hnil
      exact hempty (List.isEmpty_iff.2 hnil)
    · rw [String.toList_ofList] at hd
      exact List.mem_takeWhile_imp hd

/-- The name of an opening tag is what stands behind its `<`, up to a gap. -/
theorem name_ofRaw {raw : String} {c : Char} {body : List Char}
    (hraw : raw.toList = '<' :: c :: (body ++ ['>'])) (hc : c.isAlpha = true) :
    (ofRaw raw).name.toList = c :: body.takeWhile fun c => !isGap c := by
  have hinner : inner raw.toList = c :: body := by
    have hlast : (c :: (body ++ ['>'])).getLast? = some '>' := by
      rw [← List.cons_append, List.getLast?_concat]
    have hdrop : (c :: (body ++ ['>'])).dropLast = c :: body := by
      rw [← List.cons_append, List.dropLast_concat]
    rw [hraw, inner]
    simp only [hlast, hdrop, if_true]
  have hgap : (!isGap c) = true := by rw [isGap_of_isAlpha hc, Bool.not_false]
  rw [ofRaw, hinner, String.toList_ofList, List.takeWhile_cons_of_pos (p := fun c => !isGap c) hgap]

/-- The element of an opening tag has names such as reading can find. -/
theorem formed_ofRaw {raw : String} (h : (Token.openTag raw).Formed) :
    (ofRaw raw).element.Formed := by
  obtain ⟨c, body, hraw, hc⟩ := h
  have hname := name_ofRaw hraw hc
  refine ⟨?_, fun d hd => ?_, fun a ha => ?_⟩
  · rw [element, hname]
    exact hc
  · have hgap : (!isGap d) = true := by
      rw [ofRaw, element, String.toList_ofList] at hd
      exact List.mem_takeWhile_imp (p := fun c => !isGap c) hd
    simpa using hgap
  · obtain ⟨x, hx, rfl⟩ := List.mem_map.1 ha
    exact attributes_names _ _ x hx

end OpenTag

/-! ### Trees -/

/-- No attribute of the element is marked as bound. -/
def Element.Unmarked (e : Element) : Prop := ∀ a ∈ e.attrs, a.encoded = false

/-- An element that is read has no marked attributes. -/
theorem OpenTag.unmarked_element (tag : OpenTag) : tag.element.Unmarked := by
  intro a ha
  obtain ⟨x, -, rfl⟩ := List.mem_map.1 ha
  rfl

/-- A node as reading makes it. -/
structure Content.Parsed (c : Content) (kids : Forest) : Prop where
  formed : c.Formed kids
  row : Forest.Tidy kids
  unmarked : ∀ e ∈ c.element?, e.Unmarked

/-- Every node of a tree is as reading makes it. -/
def Tree.Parsed (t : Tree) : Prop := ∀ u ∈ t.preorder, u.content.Parsed u.children

/-- Trees in a row are as reading makes them. -/
structure Forest.Parsed (f : Forest) : Prop where
  row : f.Tidy
  trees : ∀ t ∈ f, t.Parsed

/-- The subtrees of trees in a row are those of each. -/
theorem Forest.mem_preorder {f : Forest} {u : Tree} :
    u ∈ Forest.preorder f ↔ ∃ t ∈ f, u ∈ t.preorder := by
  induction f with
  | nil => simp [Forest.preorder]
  | cons t f ih => simp [Forest.preorder, ih]

/-- Something holds of a tree and all subtrees below it. -/
theorem Tree.forall_preorder {p : Tree → Prop} {c : Content} {kids : Forest} :
    (∀ u ∈ (Tree.node c kids).preorder, p u) ↔
      p (.node c kids) ∧ ∀ t ∈ kids, ∀ u ∈ t.preorder, p u := by
  constructor
  · intro h
    refine ⟨h _ List.mem_cons_self, fun t ht u hu => h u (List.mem_cons_of_mem _ ?_)⟩
    exact Forest.mem_preorder.2 ⟨t, ht, hu⟩
  · rintro ⟨hc, hkids⟩ u hu
    rcases List.mem_cons.1 hu with rfl | hu
    · exact hc
    · obtain ⟨t, ht, hut⟩ := Forest.mem_preorder.1 hu
      exact hkids t ht u hut

/-- A tree is as reading makes it if its topmost node is, and every tree below. -/
theorem Tree.parsed_node {c : Content} {kids : Forest} :
    (Tree.node c kids).Parsed ↔ c.Parsed kids ∧ ∀ t ∈ kids, t.Parsed :=
  Tree.forall_preorder

namespace Forest

/-- A tidy row is tidy from its end as well. -/
theorem Tidy.reverse {f : Forest} (hf : f.Tidy) : Tidy f.reverse := by
  refine ⟨fun t ht => hf.nonempty t (List.mem_reverse.1 ht), List.isChain_reverse.2 ?_⟩
  exact hf.apart.imp fun t u h hut => h ⟨hut.2, hut.1⟩

/-- The same for a row as reading makes it. -/
theorem Parsed.reverse {f : Forest} (hf : Parsed f) : Parsed f.reverse :=
  ⟨hf.row.reverse, fun t ht => hf.trees t (List.mem_reverse.1 ht)⟩

/-- A tree other than text may be put before a row. -/
theorem Parsed.cons {f : Forest} (hf : Parsed f) {t : Tree} (ht : t.Parsed)
    (htext : t.isText = false) : Parsed (t :: f) := by
  refine ⟨tidy_cons.2 ⟨?_, fun h => ?_, hf.row⟩, List.forall_mem_cons.2 ⟨ht, hf.trees⟩⟩
  · intro hempty
    rw [Tree.isText, hempty] at htext
    cases htext
  · rw [htext] at h
    cases h

end Forest

/-- A node that is no element and has nothing below it is as reading makes it. -/
theorem Tree.parsed_leaf {c : Content} (hc : c.Formed []) (helement : c.element? = none) :
    (Tree.node c []).Parsed := by
  refine Tree.parsed_node.2 ⟨⟨hc, Forest.tidy_nil, fun e he => ?_⟩, nofun⟩
  rw [helement] at he
  cases he

/-- So is a text. -/
theorem Tree.parsed_ofText (s : String) : (Tree.ofText s).Parsed := Tree.parsed_leaf rfl rfl

/-! ### The builder -/

namespace Builder

/-- All that has been built so far is as reading makes it, and no open element is void. -/
structure Parsed (b : Builder) : Prop where
  current : Forest.Parsed b.current
  opened : ∀ x ∈ b.opened,
    x.1.Formed ∧ x.1.Unmarked ∧ isVoid x.1.name = false ∧ Forest.Parsed x.2

/-- At the start nothing has been built. -/
theorem parsed_empty : ({} : Builder).Parsed :=
  ⟨⟨Forest.tidy_nil, List.forall_mem_nil _⟩, List.forall_mem_nil _⟩

variable {b : Builder}

/-- Adding a tree other than text. -/
theorem Parsed.add (hb : b.Parsed) {t : Tree} (ht : t.Parsed) (htext : t.isText = false) :
    (b.add t).Parsed :=
  ⟨hb.current.cons ht htext, hb.opened⟩

/-- Adding text, which is joined to a text before it. -/
theorem Parsed.addText (hb : b.Parsed) {s : List Char} (hs : s ≠ []) : (b.addText s).Parsed := by
  refine ⟨?_, ?_⟩
  · unfold Builder.addText
    split
    · rename_i before kids rest hcurrent
      obtain ⟨hrow, htrees⟩ := hcurrent ▸ hb.current
      obtain ⟨ht, hrest⟩ := List.forall_mem_cons.1 htrees
      obtain ⟨-, hapart, htidy⟩ := Forest.tidy_cons.1 hrow
      obtain ⟨rfl, -, -⟩ := (Tree.parsed_node.1 ht).1
      refine ⟨Forest.tidy_cons.2 ⟨fun h => ?_, hapart, htidy⟩,
        List.forall_mem_cons.2 ⟨Tree.parsed_ofText _, hrest⟩⟩
      have hempty := (String.append_eq_empty_iff.1 (Content.text.inj h)).2
      exact hs (by simpa using hempty)
    · rename_i hcurrent
      refine ⟨Forest.tidy_cons.2 ⟨fun h => ?_, fun _ => ?_, hb.current.row⟩,
        List.forall_mem_cons.2 ⟨Tree.parsed_ofText _, hb.current.trees⟩⟩
      · exact hs (by simpa [Tree.ofText, Tree.content] using h)
      · rcases hhead : b.current with _ | ⟨⟨c, kids⟩, rest⟩
        · rfl
        · cases c with
          | text before => exact absurd hhead (hcurrent before kids rest)
          | _ => rfl
  · unfold Builder.addText
    split
    · exact hb.opened
    · exact hb.opened

/-- Opening an element. -/
theorem Parsed.push (hb : b.Parsed) {e : Element} (he : e.Formed) (hunmarked : e.Unmarked)
    (hvoid : isVoid e.name = false) : (b.push e).Parsed :=
  ⟨⟨Forest.tidy_nil, nofun⟩,
    List.forall_mem_cons.2 ⟨⟨he, hunmarked, hvoid, hb.current⟩, hb.opened⟩⟩

/-- An element above a row as reading makes it. -/
theorem parsed_ofElement {e : Element} {kids : Forest} (he : e.Formed) (hunmarked : e.Unmarked)
    (hvoid : isVoid e.name = true → kids = []) (hkids : Forest.Parsed kids) :
    (Tree.ofElement e kids).Parsed := by
  refine Tree.parsed_node.2 ⟨⟨⟨he, hvoid⟩, hkids.row, ?_⟩, hkids.trees⟩
  rintro _ ⟨rfl⟩
  exact hunmarked

/-- Closing an element makes it a tree in the row around it. -/
theorem Parsed.pop (hb : b.Parsed) : b.pop.Parsed := by
  unfold Builder.pop
  split
  · exact hb
  · rename_i e before rest hopened
    obtain ⟨⟨he, hunmarked, hvoid, hbefore⟩, hrest⟩ := List.forall_mem_cons.1 (hopened ▸ hb.opened)
    have hempty : isVoid e.name = true → b.current.reverse = [] := by
      intro h
      rw [hvoid] at h
      cases h
    exact ⟨hbefore.cons (parsed_ofElement he hunmarked hempty hb.current.reverse) rfl, hrest⟩

/-- Closing several elements. -/
theorem Parsed.popMany (hb : b.Parsed) (n : Nat) : (popMany n b).Parsed := by
  induction n generalizing b with
  | zero => exact hb
  | succ n ih => exact ih hb.pop

/-- Closing the innermost element of a name. -/
theorem Parsed.close (hb : b.Parsed) (name : String) : (b.close name).Parsed := by
  unfold Builder.close
  split
  · exact hb.popMany _
  · exact hb

/-- What is built when all has been closed. -/
theorem Parsed.finish (hb : b.Parsed) : Forest.Parsed b.finish := (hb.popMany _).current.reverse

end Builder

/-! ### Reading lexeme by lexeme -/

/-- One lexeme, with the raw text behind it if there is some, has been taken from the front of a
source, and has changed one builder to another. -/
inductive Takes : Builder → List Char → Builder → List Char → Prop where
  | text {b s l rest} : Lexeme.next? s = some (l, rest) → Takes b s (b.addText l.text) rest
  | comment {b s x body rest} : Lexeme.next? s = some (⟨x, some (.comment body)⟩, rest) →
    Takes b s (b.add (.node (.comment body) [])) rest
  | doctype {b s x text rest} : Lexeme.next? s = some (⟨x, some (.doctype text)⟩, rest) →
    Takes b s (b.add (.node (.doctype text) [])) rest
  | closeTag {b s x name rest} : Lexeme.next? s = some (⟨x, some (.closeTag name)⟩, rest) →
    Takes b s (b.close name) rest
  | emptyElement {b s x raw rest} : Lexeme.next? s = some (⟨x, some (.openTag raw)⟩, rest) →
    (isVoid (OpenTag.ofRaw raw).name || (OpenTag.ofRaw raw).selfClosing) = true →
    Takes b s (b.add (.ofElement (OpenTag.ofRaw raw).element [])) rest
  | openTag {b s x raw rest} : Lexeme.next? s = some (⟨x, some (.openTag raw)⟩, rest) →
    (isVoid (OpenTag.ofRaw raw).name || (OpenTag.ofRaw raw).selfClosing) = false →
    (isRawText (OpenTag.ofRaw raw).name = true →
      rawBody? (OpenTag.ofRaw raw).name.toList rest = some ([], rest)) →
    Takes b s (b.push (OpenTag.ofRaw raw).element) rest
  | rawText {b s x raw rest body rest'} :
    Lexeme.next? s = some (⟨x, some (.openTag raw)⟩, rest) →
    (isVoid (OpenTag.ofRaw raw).name || (OpenTag.ofRaw raw).selfClosing) = false →
    isRawText (OpenTag.ofRaw raw).name = true →
    rawBody? (OpenTag.ofRaw raw).name.toList rest = some (body, rest') → body ≠ [] →
    Takes b s ((b.push (OpenTag.ofRaw raw).element).addText body) rest'

/-- Reading ends with the source, or takes a lexeme and goes on. -/
theorem parseFrom_cases {b b' : Builder} {o : Nat} {s : List Char}
    (h : parseFrom b o s = .ok b') :
    (s = [] ∧ b' = b) ∨ ∃ b₁ o₁ s₁, Takes b s b₁ s₁ ∧ s₁.length < s.length ∧
      parseFrom b₁ o₁ s₁ = .ok b' := by
  by_cases hs : s = []
  · rw [hs, parseFrom_nil] at h
    exact .inl ⟨hs, (Except.ok.inj h).symm⟩
  refine .inr ?_
  obtain ⟨⟨x, token⟩, rest, hnext⟩ := exists_next? hs
  have hless := Lexeme.next?_length hnext
  rw [parseFrom_eq hnext] at h
  rcases token with _ | ⟨body | text | name | raw | text⟩
  case none =>
    dsimp only at h
    split at h
    · cases h
    · exact ⟨_, _, _, .text hnext, hless, h⟩
  case some.comment => exact ⟨_, _, _, .comment hnext, hless, h⟩
  case some.doctype => exact ⟨_, _, _, .doctype hnext, hless, h⟩
  case some.closeTag => exact ⟨_, _, _, .closeTag hnext, hless, h⟩
  case some.openTag =>
    dsimp only at h
    split at h
    · rename_i hempty
      exact ⟨_, _, _, .emptyElement hnext hempty, hless, h⟩
    rename_i hopen
    rw [Bool.not_eq_true] at hopen
    split at h
    · rename_i hraw
      split at h
      · cases h
      · rename_i body rest' hbody
        have hrest := rawBody?_eq_some hbody
        rcases body with _ | ⟨c, body⟩
        · obtain rfl : rest = rest' := hrest
          exact ⟨_, _, _, .openTag hnext hopen fun _ => hbody, hless, h⟩
        · have hless' : rest'.length < s.length := by
            rw [hrest, List.length_append] at hless
            omega
          exact ⟨_, _, _, .rawText hnext hopen hraw hbody (List.cons_ne_nil c body), hless', h⟩
    · rename_i hraw
      exact ⟨_, _, _, .openTag hnext hopen fun h => absurd h hraw, hless, h⟩
  case some.text => exact ⟨_, _, _, .text hnext, hless, h⟩

/-- What every lexeme keeps of the builder holds at the end of the source. -/
theorem parseFrom_induction {P : Builder → Prop}
    (hkeeps : ∀ {b s b₁ s₁}, Takes b s b₁ s₁ → P b → P b₁) {b b' : Builder} (hb : P b) {o : Nat}
    {s : List Char} (h : parseFrom b o s = .ok b') : P b' := by
  induction hn : s.length using Nat.strong_induction_on generalizing s b o with
  | _ n ih =>
  rcases parseFrom_cases h with ⟨-, rfl⟩ | ⟨b₁, o₁, s₁, htakes, hless, hrest⟩
  · exact hb
  · exact ih _ (hn ▸ hless) (hkeeps htakes hb) hrest rfl

/-- **Every lexeme keeps what holds of the builder.** -/
theorem Takes.parsed {b b₁ : Builder} {s s₁ : List Char} (h : Takes b s b₁ s₁) (hb : b.Parsed) :
    b₁.Parsed := by
  cases h with
  | text hnext => exact hb.addText (Lexeme.next?_eq_some hnext).2
  | comment hnext => exact hb.add (Tree.parsed_leaf ⟨rfl, Lexeme.next?_formed hnext _ rfl⟩ rfl) rfl
  | doctype hnext => exact hb.add (Tree.parsed_leaf ⟨rfl, Lexeme.next?_formed hnext _ rfl⟩ rfl) rfl
  | closeTag hnext => exact hb.close _
  | emptyElement hnext hempty =>
    have he := OpenTag.formed_ofRaw (Lexeme.next?_formed hnext _ rfl)
    refine hb.add (Builder.parsed_ofElement he (OpenTag.unmarked_element _) (fun _ => rfl) ?_) rfl
    exact ⟨Forest.tidy_nil, nofun⟩
  | openTag hnext hopen hbody =>
    have he := OpenTag.formed_ofRaw (Lexeme.next?_formed hnext _ rfl)
    exact hb.push he (OpenTag.unmarked_element _) (Bool.or_eq_false_iff.1 hopen).1
  | rawText hnext hopen hraw hbody hne =>
    have he := OpenTag.formed_ofRaw (Lexeme.next?_formed hnext _ rfl)
    have hpush := hb.push he (OpenTag.unmarked_element _) (Bool.or_eq_false_iff.1 hopen).1
    exact hpush.addText hne

/-- **What reading makes of any source.** -/
theorem parse_parsed {source : String} {f : Forest} (h : parse source = .ok f) :
    Forest.Parsed f := by
  rw [parse] at h
  rcases hb : parseFrom {} 0 source.toList with fault | b <;> rw [hb] at h
  · cases h
  obtain rfl := Except.ok.inj h
  exact (parseFrom_induction Takes.parsed Builder.parsed_empty hb).finish

/-- A result that passes a check is one with the property checked. -/
theorem exists_ok_of_any {ε α : Type} {x : Except ε α} {p : α → Prop} [DecidablePred p]
    (h : x.toOption.any (fun a => decide (p a)) = true) : ∃ a, x = .ok a ∧ p a := by
  rcases x with error | a
  · cases h
  · exact ⟨a, rfl, of_decide_eq_true h⟩

mutual
/-- What reading makes is as it makes it outside raw text, in particular. -/
theorem Tree.Parsed.outsideRaw {t : Tree} (h : t.Parsed) : t.OutsideRaw Content.Parsed := by
  obtain ⟨c, kids⟩ := t
  obtain ⟨hc, hkids⟩ := Tree.parsed_node.1 h
  exact ⟨hc, fun _ => Forest.outsideRaw_of_parsed hkids⟩

/-- The same for trees in a row. -/
theorem Forest.outsideRaw_of_parsed {f : Forest} (h : ∀ t ∈ f, t.Parsed) :
    Forest.OutsideRaw Content.Parsed f := by
  match f with
  | [] => trivial
  | t :: rest =>
    obtain ⟨ht, hrest⟩ := List.forall_mem_cons.1 h
    exact ⟨ht.outsideRaw, Forest.outsideRaw_of_parsed hrest⟩
end

end Markup
end HtmlCompose
