/-
# Reading gives back what was written

Reading goes from lexeme to lexeme with a builder, so what has to be shown of a tree is
how the builder is after the lexemes that it is written with: as if the tree had been
added (`Tree.parseFrom_write`, `Forest.parseFrom_write`).  The induction is on the tree.
What comes before and behind a tree matters for texts only: a text must not follow a
text, or the two would be joined, and a `<` or the end must come after it.

For all trees of a source that is all there is to know (`parse_write`).  A text with
nothing at all behind it may hold more than a harmless one (`parseFrom_lexemes`).
-/
import HtmlCompose.Proofs.Markup.WrittenTag
import HtmlCompose.Proofs.Markup.Edit

namespace HtmlCompose
namespace Markup

/-! ### One lexeme -/

/-- At the end of the source, all has been built. -/
theorem parseFrom_nil (b : Builder) (o : Nat) : parseFrom b o [] = .ok b := by
  rw [parseFrom]
  split
  · rfl
  · rename_i heq
    cases heq

/-- What one lexeme does to the builder. -/
theorem parseFrom_eq {s rest : List Char} {l : Lexeme} (h : Lexeme.next? s = some (l, rest))
    (b : Builder) (o : Nat) :
    parseFrom b o s =
      match l.token with
      | some (.text _) => parseFrom (b.addText l.text) (o + Text.byteLength l.text) rest
      | some (.comment body) =>
        parseFrom (b.add (.node (.comment body) [])) (o + Text.byteLength l.text) rest
      | some (.doctype text) =>
        parseFrom (b.add (.node (.doctype text) [])) (o + Text.byteLength l.text) rest
      | some (.closeTag name) => parseFrom (b.close name) (o + Text.byteLength l.text) rest
      | some (.openTag raw) =>
        if isVoid (OpenTag.ofRaw raw).name || (OpenTag.ofRaw raw).selfClosing then
          parseFrom (b.add (.ofElement (OpenTag.ofRaw raw).element []))
            (o + Text.byteLength l.text) rest
        else if isRawText (OpenTag.ofRaw raw).name then
          match rawBody? (OpenTag.ofRaw raw).name.toList rest with
          | none => .error (.unterminatedRawText (OpenTag.ofRaw raw).name (spanToEnd o s))
          | some (body, rest') =>
            parseFrom
              (if body.isEmpty then b.push (OpenTag.ofRaw raw).element
                else (b.push (OpenTag.ofRaw raw).element).addText body)
              (o + Text.byteLength l.text + Text.byteLength body) rest'
        else parseFrom (b.push (OpenTag.ofRaw raw).element) (o + Text.byteLength l.text) rest
      | none =>
        if (Text.after? ['<', '!', '-', '-'] l.text).isSome then
          .error (.unterminatedComment (spanToEnd o s))
        else parseFrom (b.addText l.text) (o + Text.byteLength l.text) rest := by
  obtain ⟨x, token⟩ := l
  rw [parseFrom]
  split
  · rename_i heq
    cases h.symm.trans heq
  rename_i heq
  obtain ⟨rfl, rfl⟩ := Prod.mk.inj (Option.some.inj (h.symm.trans heq))
  rcases token with _ | ⟨_ | _ | _ | raw | _⟩
  case some.openTag =>
    simp only
    split
    · rfl
    · split
      · split <;> rename_i hbody <;> rw [hbody]
      · rfl
  all_goals rfl

/-- A lexeme that is read as text is added to the text so far. -/
theorem parseFrom_of_isText {s rest : List Char} {l : Lexeme}
    (h : Lexeme.next? s = some (l, rest)) (hl : l.isText = true) (b : Builder) (o : Nat) :
    parseFrom b o s = parseFrom (b.addText l.text) (o + Text.byteLength l.text) rest := by
  rw [parseFrom_eq h]
  obtain ⟨x, _ | ⟨_ | _ | _ | _ | _⟩⟩ := l
  case none =>
    have hx : Text.after? ['<', '!', '-', '-'] x = none := Option.isNone_iff_eq_none.1 hl
    simp [hx]
  case some.text => rfl
  all_goals cases hl

/-! ### Text -/

namespace Builder

/-- The last thing put into the innermost open element is a text. -/
def endsInText (b : Builder) : Bool := b.current.head?.any Tree.isText

/-- Text that is added in two parts is added as one. -/
theorem addText_addText (b : Builder) (s t : List Char) :
    (b.addText s).addText t = b.addText (s ++ t) := by
  obtain ⟨current, opened⟩ := b
  rcases current with _ | ⟨⟨_ | _ | _ | _ | _, kids⟩, current⟩ <;>
    simp [addText, add, Tree.ofText, String.append_assoc]

/-- Text behind something else is a tree of its own. -/
theorem addText_eq {b : Builder} (h : b.endsInText = false) (s : List Char) :
    b.addText s = b.add (.ofText (String.ofList s)) := by
  unfold addText
  split
  · rename_i heq
    rw [endsInText, heq] at h
    cases h
  · rfl

/-- The builder with the trees of a row added one after another. -/
def addAll (b : Builder) (f : Forest) : Builder :=
  { b with current := f.reverse ++ b.current }

@[simp] theorem addAll_nil (b : Builder) : b.addAll [] = b := rfl

/-- A tree and those behind it are added in order. -/
theorem add_addAll (b : Builder) (t : Tree) (f : Forest) :
    (b.add t).addAll f = b.addAll (t :: f) := by
  simp [add, addAll]

/-- A tree behind others is added last. -/
theorem addAll_add (b : Builder) (f : Forest) (t : Tree) :
    (b.addAll f).add t = b.addAll (f ++ [t]) := by
  simp [add, addAll]

/-- Trees that are added to an empty builder are what has been built. -/
theorem finish_addAll (f : Forest) : (({} : Builder).addAll f).finish = f := by
  simp [finish, addAll, popMany]

end Builder

/-- **A harmless text is read as text**, if a `<` or nothing comes after it. -/
theorem parseFrom_harmless {rest : List Char} (hrest : rest.head?.all (· == '<') = true)
    (s : List Char) (hs : isHarmless s = true) (hne : s ≠ []) (b : Builder) (o : Nat) :
    parseFrom b o (s ++ rest) = parseFrom (b.addText s) (o + Text.byteLength s) rest := by
  induction hn : s.length using Nat.strong_induction_on generalizing s b o with
  | _ n ih =>
  obtain ⟨l, t, rfl, hl, ht, hnext⟩ := Lexeme.next?_harmless hs hne hrest
  rw [parseFrom_of_isText hnext hl]
  rcases t with _ | ⟨c, t⟩
  · simp
  · have hless : (c :: t).length < n := by
      have hpos := List.length_pos_iff.2 (Lexeme.next?_eq_some hnext).2
      rw [← hn, List.length_append]
      omega
    rw [ih _ hless (c :: t) ht (List.cons_ne_nil c t) _ _ rfl, Builder.addText_addText,
      Text.byteLength_append, Nat.add_assoc]

/-- There are no lexemes of the empty source. -/
theorem all_nil : Lexeme.all [] = [] := by
  rw [Lexeme.all]
  split
  · rfl
  · rename_i heq
    cases heq

/-- The lexemes of a source are the first one and those of the rest. -/
theorem all_eq_cons {s rest : List Char} {l : Lexeme} (h : Lexeme.next? s = some (l, rest)) :
    Lexeme.all s = l :: Lexeme.all rest := by
  rw [Lexeme.all]
  split
  · rename_i heq
    cases h.symm.trans heq
  · rename_i heq
    obtain ⟨rfl, rfl⟩ := Prod.mk.inj (Option.some.inj (h.symm.trans heq))
    rfl

/-- A source that is not empty has a first lexeme. -/
theorem exists_next? {s : List Char} (h : s ≠ []) :
    ∃ l rest, Lexeme.next? s = some (l, rest) := by
  rw [← Prod.exists (p := fun x => Lexeme.next? s = some x), ← Option.isSome_iff_exists]
  unfold Lexeme.next?
  split
  case h_1 => exact absurd rfl h
  case h_6 => rfl
  case h_7 => rfl
  all_goals split
  all_goals first | rfl | split <;> rfl

/-- A text with nothing at all behind it is read as text if its lexemes are. -/
theorem parseFrom_lexemes (s : List Char) (hs : (Lexeme.all s).all Lexeme.isText = true)
    (hne : s ≠ []) (b : Builder) (o : Nat) : parseFrom b o s = .ok (b.addText s) := by
  induction hn : s.length using Nat.strong_induction_on generalizing s b o with
  | _ n ih =>
  obtain ⟨l, t, hnext⟩ := exists_next? hne
  rw [all_eq_cons hnext, List.all_cons, Bool.and_eq_true] at hs
  rw [parseFrom_of_isText hnext hs.1, (Lexeme.next?_eq_some hnext).1]
  rcases t with _ | ⟨c, t⟩
  · rw [parseFrom_nil, List.append_nil]
  · have hless : (c :: t).length < n := hn ▸ Lexeme.next?_length hnext
    rw [ih _ hless (c :: t) hs.2 (List.cons_ne_nil c t) _ _ rfl, Builder.addText_addText]

/-! ### Raw text -/

/-- A text starts with a pattern in any case if its lower case starts with the pattern. -/
theorem startsFolded_eq (p s : List Char) :
    Text.startsFolded p s = (Text.after? p (Text.foldCase s)).isSome := by
  induction p generalizing s with
  | nil => rfl
  | cons a p ih =>
    rcases s with _ | ⟨c, s⟩
    · rfl
    · have hfold : Text.foldCase (c :: s) = c.toLower :: Text.foldCase s := rfl
      rw [Text.startsFolded, ih, hfold, Text.after?]
      by_cases hac : a = c.toLower <;> simp [hac]

/-- The name of an element that holds raw text has letters only. -/
theorem isAlpha_of_isRawText {name : String} (h : isRawText name = true) :
    ∀ c ∈ Text.foldCase name.toList, c.isAlpha = true := by
  obtain ⟨raw, hmem, hsame⟩ := List.any_eq_true.1 h
  have hfold : Text.foldCase name.toList = Text.foldCase raw.toList := by
    rw [sameName, beq_iff_eq] at hsame
    exact hsame.symm
  have hletters : ∀ raw ∈ rawTextNames, (Text.foldCase raw.toList).all Char.isAlpha = true := by
    decide +kernel
  rw [hfold]
  exact List.all_eq_true.1 (hletters raw hmem)

/-- In particular, there is no `<` in it. -/
theorem lt_not_mem_of_isRawText {name : String} (h : isRawText name = true) :
    '<' ∉ Text.foldCase name.toList :=
  fun hmem => absurd (isAlpha_of_isRawText h _ hmem) (by decide)

/-- Lower case goes character by character. -/
theorem foldCase_append (s t : List Char) :
    Text.foldCase (s ++ t) = Text.foldCase s ++ Text.foldCase t :=
  List.map_append

/-- A closing tag starts at the first character or later. -/
theorem holdsCloser_cons {name : String} {c : Char} {s : List Char} :
    holdsCloser name (c :: s) =
      (Text.startsFolded ('<' :: '/' :: Text.foldCase name.toList) (c :: s) ||
        holdsCloser name s) := by
  rw [holdsCloser, startsFolded_eq]
  exact Text.occurs_cons _ _ _

/-- **Raw text ends at the first closing tag of its element.** -/
theorem rawBody?_append {name : String} (hraw : isRawText name = true) {body : List Char}
    (hbody : holdsCloser name body = false) {rest : List Char}
    (hrest : Text.startsFolded ('<' :: '/' :: Text.foldCase name.toList) rest = true) :
    rawBody? name.toList (body ++ rest) = some (body, rest) := by
  obtain ⟨behind, hclose⟩ : ∃ behind, Text.foldCase rest =
      '<' :: '/' :: Text.foldCase name.toList ++ behind := by
    rw [startsFolded_eq, Option.isSome_iff_exists] at hrest
    obtain ⟨behind, hbehind⟩ := hrest
    exact ⟨behind, Text.after?_eq_some_iff.1 hbehind⟩
  induction body with
  | nil =>
    rcases rest with _ | ⟨d, rest⟩
    · cases hrest
    · rw [List.nil_append, rawBody?, if_pos hrest]
  | cons c body ih =>
    rw [holdsCloser_cons, Bool.or_eq_false_iff] at hbody
    have hstarts : Text.startsFolded ('<' :: '/' :: Text.foldCase name.toList)
        (c :: (body ++ rest)) = false := by
      rw [Bool.eq_false_iff]
      intro hstarts
      rw [startsFolded_eq, Option.isSome_iff_exists] at hstarts
      obtain ⟨r, hr⟩ := hstarts
      rw [Text.after?_eq_some_iff, ← List.cons_append, foldCase_append, hclose] at hr
      have hin := hbody.1
      rw [startsFolded_eq] at hin
      rcases List.append_eq_append_iff.1 hr with ⟨t, ht, hbehind⟩ | ⟨t, ht, -⟩
      · rcases t with _ | ⟨d, t⟩
        · have hall : Text.foldCase (c :: body) =
              ('<' :: '/' :: Text.foldCase name.toList) ++ [] := by simpa using ht.symm
          rw [Text.after?_eq_some_iff.2 hall] at hin
          cases hin
        -- the closing tag would start in the body and end behind it, but has no `<` inside
        · obtain rfl : '<' = d := (List.cons.inj hbehind).1
          have htail : '/' :: Text.foldCase name.toList = Text.foldCase body ++ '<' :: t :=
            (List.cons.inj ht).2
          have hmem : '<' ∈ '/' :: Text.foldCase name.toList := by simp [htail]
          rcases List.mem_cons.1 hmem with h | h
          · cases h
          · exact lt_not_mem_of_isRawText hraw h
      · rw [Text.after?_eq_some_iff.2 ht] at hin
        cases hin
    rw [List.cons_append, rawBody?, if_neg (by simp [hstarts]), ih hbody.2]
    rfl

/-- A written closing tag is found as the closing tag of its element. -/
theorem startsFolded_writeCloseTag (e : Element) (rest : List Char) :
    Text.startsFolded ('<' :: '/' :: Text.foldCase e.name.toList) (writeCloseTag e ++ rest) =
      true := by
  rw [startsFolded_eq, Option.isSome_iff_exists]
  exact ⟨Text.foldCase ('>' :: rest),
    Text.after?_eq_some_iff.2 (by simp [writeCloseTag, Text.foldCase])⟩

/-- Raw text ends at the closing tag that is written behind it. -/
theorem rawBody?_written {e : Element} (hraw : isRawText e.name = true) {body : List Char}
    (hbody : holdsCloser e.name body = false) (rest : List Char) :
    rawBody? e.name.toList (body ++ (writeCloseTag e ++ rest)) =
      some (body, writeCloseTag e ++ rest) :=
  rawBody?_append hraw hbody (startsFolded_writeCloseTag e rest)

/-! ### Trees -/

/-- A node that is read back as it is written. -/
def Content.Readable (c : Content) (kids : Forest) : Prop :=
  c.Formed kids ∧ c.Settled kids ∧ Forest.Tidy kids

/-- The closing tag of the element that is open closes it. -/
theorem Builder.close_push (b : Builder) (e : Element) (f : Forest) :
    ((b.push e.cleared).addAll f).close e.name = b.add (.ofElement e.cleared f) := by
  have hname : e.cleared.is e.name = true := by
    rw [Element.is, sameName]
    exact beq_self_eq_true _
  rw [close, addAll, push]
  simp only [List.findIdx?_cons, hname, if_true, List.append_nil]
  simp [popMany, pop, add]

section Elements

variable {e : Element} (he : e.Formed) (b : Builder) (o : Nat)
include he

/-- The closing tag ends an element that something has been added to. -/
theorem parseFrom_writeCloseTag (hend : '>' ∉ e.name.toList) (f : Forest) (rest : List Char) :
    parseFrom ((b.push e.cleared).addAll f) o (writeCloseTag e ++ rest) =
      parseFrom (b.add (.ofElement e.cleared f)) (o + Text.byteLength (writeCloseTag e)) rest := by
  rw [parseFrom_eq (Lexeme.next?_closeTag he hend rest)]
  simp only [Builder.close_push]

variable (hopens : e.OpensWell)
include hopens

/-- What a written opening tag does. -/
theorem parseFrom_writeOpenTag (s : List Char) :
    parseFrom b o (writeOpenTag e ++ s) =
      if isVoid e.name then
        parseFrom (b.add (.ofElement e.cleared [])) (o + Text.byteLength (writeOpenTag e)) s
      else if isRawText e.name then
        match rawBody? e.name.toList s with
        | none => .error (.unterminatedRawText e.name (spanToEnd o (writeOpenTag e ++ s)))
        | some (body, rest) =>
          parseFrom
            (if body.isEmpty then b.push e.cleared else (b.push e.cleared).addText body)
            (o + Text.byteLength (writeOpenTag e) + Text.byteLength body) rest
      else parseFrom (b.push e.cleared) (o + Text.byteLength (writeOpenTag e)) s := by
  rw [parseFrom_eq (hopens.next? he s)]
  simp only [element_ofRaw he]
  simp only [ofRaw_writeOpenTag he, Bool.or_false]

/-- An element with raw text is read back with the characters of its body. -/
theorem parseFrom_rawText (hvoid : isVoid e.name = false) (hraw : isRawText e.name = true)
    (hend : '>' ∉ e.name.toList) {body : List Char} (hbody : holdsCloser e.name body = false)
    (rest : List Char) :
    parseFrom b o (writeOpenTag e ++ body ++ writeCloseTag e ++ rest) =
      parseFrom (b.add (.ofElement e.cleared (Forest.ofRawText body)))
        (o + Text.byteLength (writeOpenTag e ++ body ++ writeCloseTag e)) rest := by
  have hinside : (if body.isEmpty then b.push e.cleared else (b.push e.cleared).addText body) =
      (b.push e.cleared).addAll (Forest.ofRawText body) := by
    rw [Forest.ofRawText]
    split
    · rfl
    · exact Builder.addText_eq rfl body
  rw [List.append_assoc, List.append_assoc, parseFrom_writeOpenTag he _ _ hopens, hvoid, hraw,
    rawBody?_written hraw hbody rest]
  simp only [Bool.false_eq_true, if_false, if_true, hinside]
  rw [parseFrom_writeCloseTag he _ _ hend]
  simp only [Text.byteLength_append, Nat.add_assoc]

end Elements

/-- Reading back leaves texts texts, and makes no others. -/
theorem Tree.isText_reread (t : Tree) : t.reread.isText = t.isText := by
  obtain ⟨_ | _ | _ | _ | _, kids⟩ := t <;> rfl

/-- The markup of a node that is no text starts with `<`. -/
theorem head?_write {t : Tree} (ht : t.content.Formed t.children) (htext : t.isText = false)
    (s : List Char) : (t.write ++ s).head? = some '<' := by
  obtain ⟨c, kids⟩ := t
  rcases c with _ | e | s | body | s
  · exact ht.elim
  · rw [Tree.write]
    split <;> simp [writeOpenTag]
  · cases htext
  · rfl
  · have hdecl := ht.2
    unfold isDeclaration at hdecl
    split at hdecl
    · rename_i heq
      rw [Tree.write, heq]
      rfl
    · cases hdecl

mutual
/-- **Reading the markup of a tree adds the tree.** -/
theorem Tree.parseFrom_write {t : Tree} (ht : t.OutsideRaw Content.Readable)
    (hne : t.content ≠ .text "") {b : Builder}
    (hbefore : t.isText = true → b.endsInText = false) (rest : List Char)
    (hrest : t.isText = true → rest.head?.all (· == '<') = true) (o : Nat) :
    parseFrom b o (t.write ++ rest) =
      parseFrom (b.add t.reread) (o + Text.byteLength t.write) rest := by
  obtain ⟨c, kids⟩ := t
  obtain ⟨⟨hformed, hsettled, htidy⟩, hkids⟩ := ht
  rcases c with _ | e | s | body | s
  · exact hformed.elim
  · obtain ⟨he, hempty⟩ := hformed
    obtain ⟨hopens, hend, hraw⟩ := hsettled
    rw [Tree.write, Tree.reread, Content.cleared, Content.holdsRawText]
    rcases hvoid : isVoid e.name with _ | _
    · rw [Bool.false_and, if_neg Bool.false_ne_true]
      rcases hholds : isRawText e.name with _ | _
      · have hread := Forest.parseFrom_write (hkids hholds) htidy (b := b.push e.cleared)
          (fun _ => rfl) (writeCloseTag e ++ rest) (fun _ => rfl)
          (o + Text.byteLength (writeOpenTag e))
        rw [List.append_assoc, List.append_assoc, parseFrom_writeOpenTag he _ _ hopens, hvoid, hholds]
        simp only [Bool.false_eq_true, if_false]
        rw [hread, parseFrom_writeCloseTag he _ _ (hend hvoid)]
        simp only [Text.byteLength_append, Nat.add_assoc]
        rfl
      · exact parseFrom_rawText he b o hopens hvoid hholds (hend hvoid) (hraw hholds) rest
    · obtain rfl := hempty hvoid
      have hnone : (if isRawText e.name then Forest.ofRawText (Forest.write [])
          else Forest.reread []) = [] := by
        split <;> rfl
      rw [List.isEmpty_nil, Bool.and_self, if_pos rfl, hnone, parseFrom_writeOpenTag he _ _ hopens,
        if_pos hvoid]
      rfl
  · obtain rfl : kids = [] := hformed
    have hs : s.toList ≠ [] := by
      intro hs
      exact hne (congrArg Content.text (String.toList_eq_nil_iff.1 hs))
    rw [Tree.write, parseFrom_harmless (hrest rfl) _ hsettled hs, Builder.addText_eq (hbefore rfl),
      String.ofList_toList]
    rfl
  · obtain ⟨rfl, hbody⟩ := hformed
    have hnext := Lexeme.next?_comment hbody rest
    rw [String.ofList_toList] at hnext
    exact parseFrom_eq hnext b o
  · obtain ⟨rfl, hdecl⟩ := hformed
    have hnext := Lexeme.next?_doctype hdecl rest
    rw [String.ofList_toList] at hnext
    exact parseFrom_eq hnext b o

/-- **Reading the markup of trees in a row adds them.** -/
theorem Forest.parseFrom_write {f : Forest} (hf : Forest.OutsideRaw Content.Readable f)
    (htidy : Forest.Tidy f) {b : Builder}
    (hbefore : f.head?.any Tree.isText = true → b.endsInText = false) (rest : List Char)
    (hrest : f.getLast?.any Tree.isText = true → rest.head?.all (· == '<') = true) (o : Nat) :
    parseFrom b o (Forest.write f ++ rest) =
      parseFrom (b.addAll (Forest.reread f)) (o + Text.byteLength (Forest.write f)) rest := by
  match f with
  | [] => rfl
  | t :: ts =>
    rw [Forest.OutsideRaw] at hf
    obtain ⟨hne, hapart, htidy'⟩ := Forest.tidy_cons.1 htidy
    have hnext : t.isText = true → (Forest.write ts ++ rest).head?.all (· == '<') = true := by
      intro ht
      rcases ts with _ | ⟨u, us⟩
      · exact hrest ht
      · have hu : u.content.Formed u.children := by
          obtain ⟨c, kids⟩ := u
          exact hf.2.1.1.1
        rw [Forest.write, List.append_assoc, head?_write hu (hapart ht)]
        rfl
    have hbehind : ts.head?.any Tree.isText = true → (b.add t.reread).endsInText = false := by
      intro hu
      rw [Builder.endsInText, Builder.add, List.head?_cons, Option.any_some, Tree.isText_reread,
        Bool.eq_false_iff]
      intro ht
      rw [hapart ht] at hu
      cases hu
    have hlast : ts.getLast?.any Tree.isText = true → rest.head?.all (· == '<') = true := by
      intro hu
      rcases ts with _ | ⟨u, us⟩
      · cases hu
      · exact hrest hu
    rw [Forest.write, List.append_assoc, Tree.parseFrom_write hf.1 hne hbefore _ hnext,
      Forest.parseFrom_write hf.2 htidy' hbehind _ hlast, Builder.add_addAll,
      Text.byteLength_append, Nat.add_assoc]
    rfl
end

/-- **Trees in a row are read back from their markup.** -/
theorem parse_write {f : Forest} (hf : Forest.OutsideRaw Content.Readable f)
    (htidy : Forest.Tidy f) : parse (Forest.serialize f) = .ok (Forest.reread f) := by
  have hread := Forest.parseFrom_write hf htidy (b := {}) (fun _ => rfl) [] (fun _ => rfl) 0
  rw [List.append_nil, parseFrom_nil] at hread
  rw [parse, Forest.serialize, String.toList_ofList, hread]
  exact congrArg Except.ok (Builder.finish_addAll _)

end Markup
end HtmlCompose
