/-
# Written opening tags are read as what they say

An attribute value is written between double quotes, with `&` and `"` as references, so
that neither a quote nor a reference of its own is left in it (`decode_escaped`).  Names
end at the blank, `=` or `/` that is not part of them, so the attributes are read back
one by one (`attributes_written`), and with them the element (`element_ofRaw`): all but
the marks of bound attributes.

Where the tag ends is another matter: names may hold quotes and `>`.  If they hold none,
the first `>` outside quotes is the last character that is written (`Clean.opensWell`).
-/
import HtmlCompose.Proofs.Markup.Lexing

namespace HtmlCompose
namespace Markup

/-! ### Values -/

/-- A name and a `;` stand for the character of that name. -/
theorem start?_named {name : List Char} {c : Char} (hend : ';' ∉ name)
    (hlength : Text.byteLength name ≤ Reference.maxBytes) (hchar : Reference.char? name = some c)
    (s : List Char) : Reference.start? (name ++ ';' :: s) = some (c, s) := by
  rw [Reference.start?, Text.cutAt_singleton hend]
  simp only [hlength, if_true, hchar, Option.map_some]

/-- A reference is decoded to its character. -/
theorem decode_reference {s r : List Char} {c : Char} (h : Reference.start? s = some (c, r)) :
    Reference.decode ('&' :: s) = c :: Reference.decode r := by
  rw [Reference.decode, if_pos rfl]
  split
  · rename_i heq
    obtain ⟨rfl, rfl⟩ := Prod.mk.inj (Option.some.inj (h.symm.trans heq))
    rfl
  · rename_i heq
    cases h.symm.trans heq

/-- Any character other than `&` stands for itself. -/
theorem decode_cons {c : Char} (hc : c ≠ '&') (s : List Char) :
    Reference.decode (c :: s) = c :: Reference.decode s := by
  rw [Reference.decode, if_neg hc]

/-- **Decoding undoes escaping.** -/
theorem decode_escaped (s : List Char) : Reference.decode (s.flatMap attributeChar) = s := by
  induction s with
  | nil => rw [List.flatMap_nil, Reference.decode]
  | cons c s ih =>
    rw [List.flatMap_cons]
    by_cases hamp : c = '&'
    · subst hamp
      have hname : ';' ∉ ['a', 'm', 'p'] := by decide
      exact (decode_reference (start?_named hname (by decide) rfl _)).trans (congrArg _ ih)
    by_cases hquot : c = '"'
    · subst hquot
      have hname : ';' ∉ ['q', 'u', 'o', 't'] := by decide
      exact (decode_reference (start?_named hname (by decide) rfl _)).trans (congrArg _ ih)
    · rw [attributeChar, if_neg hamp, if_neg hquot, List.singleton_append, decode_cons hamp, ih]

/-- No quote is left in an escaped value. -/
theorem quote_not_mem_escaped (s : List Char) : '"' ∉ s.flatMap attributeChar := by
  intro h
  obtain ⟨c, -, hc⟩ := List.mem_flatMap.1 h
  unfold attributeChar at hc
  split at hc
  · simp at hc
  · split at hc
    · simp at hc
    · rename_i hquot
      exact hquot (List.mem_singleton.1 hc).symm

/-! ### Attributes -/

namespace OpenTag

variable {selfClosing : Bool}

/-- A character of a name is no gap. -/
theorem isGap_of_isNameChar {c : Char} (h : isNameChar c = true) : isGap c = false := by
  simp only [isNameChar, Bool.and_eq_true, Bool.not_eq_true', bne_iff_ne] at h
  simp [isGap, h.1.1, h.2]

/-- Gaps before an attribute are passed over. -/
theorem attributes_gap {c : Char} (hc : isGap c = true) (s : List Char) :
    attributes selfClosing (c :: s) = attributes selfClosing s := by
  rw [attributes.eq_def]
  exact dif_pos hc

/-- A name ends before what is no part of names, and its value comes after it. -/
theorem attributes_of_name {name r v rest : List Char} (hne : name ≠ [])
    (hname : ∀ c ∈ name, isNameChar c = true)
    (hr : r.head?.all (fun d => !isNameChar d) = true)
    (hvalue : valueAfter selfClosing (Text.trimStart Text.isBlank r) = (v, rest)) :
    attributes selfClosing (name ++ r) =
      (String.ofList name, String.ofList (Reference.decode v)) :: attributes selfClosing rest := by
  have hspan : r.takeWhile isNameChar = [] ∧ r.dropWhile isNameChar = r := by
    rcases r with _ | ⟨d, r⟩
    · exact ⟨rfl, rfl⟩
    · have hd : isNameChar d = false := by simpa using hr
      simp [hd]
  have hnext : nextAttr selfClosing (name ++ r) = ((name, v), rest) := by
    rw [nextAttr, List.takeWhile_append_of_pos hname, List.dropWhile_append_of_pos hname, hspan.1,
      hspan.2, hvalue, List.append_nil]
  obtain ⟨c, s, rfl⟩ := List.exists_cons_of_ne_nil hne
  have hgap : isGap c = false := isGap_of_isNameChar (hname c List.mem_cons_self)
  rw [List.cons_append] at hnext ⊢
  rw [attributes.eq_def]
  simp only [hgap, Bool.false_eq_true, dite_false, hnext]
  rw [if_neg (by simp)]

/-- What is written after an attribute starts with a gap, and no attribute starts with `=`. -/
theorem trimStart_written {as : List Attribute}
    (has : ∀ a ∈ as, a.name.toList ≠ [] ∧ ∀ c ∈ a.name.toList, isNameChar c = true) :
    valueAfter selfClosing (Text.trimStart Text.isBlank (as.flatMap writeAttribute)) =
        ([], Text.trimStart Text.isBlank (as.flatMap writeAttribute)) ∧
      attributes selfClosing (Text.trimStart Text.isBlank (as.flatMap writeAttribute)) =
        attributes selfClosing (as.flatMap writeAttribute) := by
  rcases as with _ | ⟨a, as⟩
  · exact ⟨rfl, rfl⟩
  obtain ⟨hne, hchars⟩ := has a List.mem_cons_self
  obtain ⟨c, s, hname⟩ := List.exists_cons_of_ne_nil hne
  have hc : isNameChar c = true := hchars c (hname ▸ List.mem_cons_self)
  have hwritten : ∃ t, (a :: as).flatMap writeAttribute = ' ' :: c :: t := by
    rw [List.flatMap_cons, writeAttribute, hname]
    exact ⟨_, rfl⟩
  obtain ⟨t, ht⟩ := hwritten
  have htrim : Text.trimStart Text.isBlank (' ' :: c :: t) = c :: t := by
    simp only [isNameChar, Bool.and_eq_true, Bool.not_eq_true', bne_iff_ne] at hc
    rw [Text.trimStart, List.dropWhile_cons_of_pos (by decide),
      List.dropWhile_cons_of_neg (by simp [hc.1.1])]
  rw [ht, htrim]
  refine ⟨?_, (attributes_gap (by decide) _).symm⟩
  unfold valueAfter
  split
  · rename_i heq
    rw [List.cons.injEq] at heq
    rw [heq.1] at hc
    simp [isNameChar] at hc
  · rfl

/-- A value in double quotes ends at the next one. -/
theorem valueAfter_quoted {v : List Char} (hv : '"' ∉ v) (r : List Char) :
    valueAfter selfClosing (Text.trimStart Text.isBlank ('=' :: '"' :: (v ++ '"' :: r))) =
      (v, r) := by
  have hne : ∀ c ∈ v, (c != '"') = true := by
    intro c hc
    rw [bne_iff_ne]
    rintro rfl
    exact hv hc
  rw [Text.trimStart, List.dropWhile_cons_of_neg (by decide), valueAfter, Text.trimStart,
    List.dropWhile_cons_of_neg (by decide), value, List.takeWhile_append_of_pos hne,
    List.dropWhile_append_of_pos hne]
  simp

/-- Written attributes do not go on with the name before them. -/
theorem head?_written {as : List Attribute} :
    (as.flatMap writeAttribute).head?.all (fun d => !isNameChar d) = true := by
  cases as <;> rfl

/-- The attributes of a written one and what is written after it. -/
theorem attributes_cons {a : Attribute} {as : List Attribute}
    (ha : a.name.toList ≠ [] ∧ ∀ c ∈ a.name.toList, isNameChar c = true)
    (has : ∀ a ∈ as, a.name.toList ≠ [] ∧ ∀ c ∈ a.name.toList, isNameChar c = true) :
    attributes selfClosing (writeAttribute a ++ as.flatMap writeAttribute) =
      (a.name, a.value) :: attributes selfClosing (as.flatMap writeAttribute) := by
  rw [writeAttribute, List.cons_append, List.cons_append, attributes_gap (by decide),
    List.append_assoc]
  split
  · rename_i hvalue
    have hempty : a.value = "" := String.isEmpty_iff.1 hvalue
    rw [List.nil_append, attributes_of_name ha.1 ha.2 head?_written (trimStart_written has).1,
      (trimStart_written has).2, String.ofList_toList, Reference.decode, hempty]
  · have hquote := quote_not_mem_escaped a.value.toList
    rw [List.cons_append, List.cons_append, List.append_assoc, List.singleton_append,
      attributes_of_name ha.1 ha.2 rfl (valueAfter_quoted hquote _), decode_escaped,
      String.ofList_toList, String.ofList_toList]

/-- **Attributes are read back.** -/
theorem attributes_written {as : List Attribute}
    (has : ∀ a ∈ as, a.name.toList ≠ [] ∧ ∀ c ∈ a.name.toList, isNameChar c = true) :
    attributes selfClosing (as.flatMap writeAttribute) = as.map fun a => (a.name, a.value) := by
  induction as with
  | nil => rw [List.flatMap_nil, attributes.eq_def, List.map_nil]
  | cons a as ih =>
    have has' := fun b hb => has b (List.mem_cons_of_mem a hb)
    rw [List.flatMap_cons, attributes_cons (has a List.mem_cons_self) has', ih has', List.map_cons]

end OpenTag

/-! ### Tags -/

variable {e : Element}

/-- What stands between the angle brackets of a written tag. -/
theorem inner_writeOpenTag (e : Element) :
    OpenTag.inner (writeOpenTag e) = e.name.toList ++ e.attrs.flatMap writeAttribute := by
  have hbody : writeOpenTag e = '<' :: ((e.name.toList ++ e.attrs.flatMap writeAttribute) ++ ['>']) :=
    by rw [writeOpenTag, List.cons_append, List.cons_append]
  rw [hbody, OpenTag.inner]
  simp

/-- A text that ends otherwise, behind one that does, does not end with `/`. -/
theorem getLast?_append_ne_slash {s t : List Char} (hs : s.getLast? ≠ some '/')
    (ht : t.getLast? ≠ some '/') : (s ++ t).getLast? ≠ some '/' := by
  rw [List.getLast?_append]
  rcases h : t.getLast? with _ | c
  · simpa using hs
  · rw [h] at ht
    simpa using ht

/-- A text without `/` does not end with it. -/
theorem getLast?_ne_slash {s : List Char} (hs : ∀ c ∈ s, c ≠ '/') : s.getLast? ≠ some '/' :=
  fun h => hs '/' (List.mem_of_getLast? h) rfl

/-- A written attribute does not end with `/`, whether it has a value or not. -/
theorem getLast?_writeAttribute_ne_slash {a : Attribute}
    (ha : ∀ c ∈ a.name.toList, OpenTag.isNameChar c = true) :
    (writeAttribute a).getLast? ≠ some '/' := by
  have hname : (' ' :: a.name.toList).getLast? ≠ some '/' := by
    refine getLast?_ne_slash fun c hc => ?_
    rcases List.mem_cons.1 hc with rfl | hc
    · decide
    · rintro rfl
      exact absurd (ha '/' hc) (by decide)
  refine getLast?_append_ne_slash hname ?_
  split
  · simp
  · rw [← List.cons_append, ← List.cons_append, List.getLast?_concat]
    decide

/-- A written tag does not close itself: no name holds a `/`, and values are in quotes. -/
theorem getLast?_written_ne_slash (he : e.Formed) :
    (e.name.toList ++ e.attrs.flatMap writeAttribute).getLast? ≠ some '/' := by
  refine getLast?_append_ne_slash (getLast?_ne_slash ?_) ?_
  · rintro c hc rfl
    exact absurd (he.name '/' hc) (by decide)
  · have hattrs := he.attrs
    generalize e.attrs = as at hattrs
    induction as with
    | nil => simp
    | cons a as ih =>
      rw [List.flatMap_cons]
      exact getLast?_append_ne_slash (getLast?_writeAttribute_ne_slash (hattrs a List.mem_cons_self).2)
        (ih fun b hb => hattrs b (List.mem_cons_of_mem a hb))

/-- **A tag is read back in its parts.** -/
theorem ofRaw_writeOpenTag (he : e.Formed) :
    OpenTag.ofRaw (String.ofList (writeOpenTag e)) =
      ⟨e.name, e.attrs.map fun a => (a.name, a.value), false⟩ := by
  have hname : ∀ c ∈ e.name.toList, (!OpenTag.isGap c) = true := by
    intro c hc
    rw [he.name c hc]
    rfl
  have hattrs : (e.attrs.flatMap writeAttribute).takeWhile (fun c => !OpenTag.isGap c) = [] ∧
      (e.attrs.flatMap writeAttribute).dropWhile (fun c => !OpenTag.isGap c) =
        e.attrs.flatMap writeAttribute := by
    rcases e.attrs with _ | ⟨a, as⟩
    · exact ⟨rfl, rfl⟩
    · rw [List.flatMap_cons, writeAttribute, List.cons_append, List.cons_append]
      exact ⟨List.takeWhile_cons_of_neg (by decide), List.dropWhile_cons_of_neg (by decide)⟩
  have hclosing : ((e.name.toList ++ e.attrs.flatMap writeAttribute).getLast? == some '/') = false :=
    beq_eq_false_iff_ne.2 (getLast?_written_ne_slash he)
  simp only [OpenTag.ofRaw, String.toList_ofList, inner_writeOpenTag, hclosing]
  rw [List.takeWhile_append_of_pos hname, List.dropWhile_append_of_pos hname, hattrs.1, hattrs.2,
    List.append_nil, String.ofList_toList, OpenTag.attributes_written he.attrs]

/-- The element of a written opening tag is the element itself, without marks. -/
theorem element_ofRaw (he : e.Formed) :
    (OpenTag.ofRaw (String.ofList (writeOpenTag e))).element = e.cleared := by
  rw [ofRaw_writeOpenTag he, OpenTag.element, Element.cleared, List.map_map]
  rfl

/-! ### Where a tag ends -/

namespace Lexeme

variable {q : Option Char} {s t a b : List Char}

/-- Where a tag ends does not depend on what comes after it. -/
theorem tagBody_append (h : tagBody q s = some (a, b)) (r : List Char) :
    tagBody q (s ++ r) = some (a, b ++ r) := by
  induction s generalizing q a b with
  | nil => cases q <;> cases h
  | cons c s ih =>
    rcases q with _ | q
    · unfold tagBody at h
      rw [List.cons_append, tagBody]
      split at h
      · rename_i hc
        obtain ⟨rfl, rfl⟩ := Prod.mk.inj (Option.some.inj h)
        rw [if_pos hc]
      · rename_i hc
        rw [if_neg hc]
        split at h <;> rename_i hquote
        · obtain ⟨⟨a', b'⟩, htail, heq⟩ := Option.map_eq_some_iff.1 h
          obtain ⟨rfl, rfl⟩ := Prod.mk.inj heq
          rw [if_pos hquote, ih htail]
          rfl
        · obtain ⟨⟨a', b'⟩, htail, heq⟩ := Option.map_eq_some_iff.1 h
          obtain ⟨rfl, rfl⟩ := Prod.mk.inj heq
          rw [if_neg hquote, ih htail]
          rfl
    · rw [tagBody] at h
      obtain ⟨⟨a', b'⟩, htail, heq⟩ := Option.map_eq_some_iff.1 h
      obtain ⟨rfl, rfl⟩ := Prod.mk.inj heq
      rw [List.cons_append, tagBody, ih htail]
      rfl

/-- Characters that neither quote nor end are passed over in a tag. -/
theorem tagBody_unquoting (hs : ∀ c ∈ s, isUnquoting c = true) (t : List Char) :
    tagBody none (s ++ t) = (tagBody none t).map fun (a, b) => (s ++ a, b) := by
  induction s with
  | nil => simp
  | cons c s ih =>
    have hc := hs c List.mem_cons_self
    simp only [isUnquoting, Bool.and_eq_true, bne_iff_ne] at hc
    rw [List.cons_append, tagBody, if_neg hc.1.1, if_neg (by simp [hc.1.2, hc.2]),
      ih fun d hd => hs d (List.mem_cons_of_mem c hd), Option.map_map]
    rfl

/-- So is anything between two quotes. -/
theorem tagBody_quoted {quote : Char} (hquote : quote = '"' ∨ quote = '\'') (hs : quote ∉ s)
    (t : List Char) : tagBody none (quote :: (s ++ quote :: t)) =
      (tagBody none t).map fun (a, b) => (quote :: (s ++ quote :: a), b) := by
  have hquoted : tagBody (some quote) (s ++ quote :: t) =
      (tagBody none t).map fun (a, b) => (s ++ quote :: a, b) := by
    induction s with
    | nil => simp [tagBody]
    | cons c s ih =>
      rw [List.mem_cons, not_or] at hs
      rw [List.cons_append, tagBody, if_neg (Ne.symm hs.1), ih hs.2, Option.map_map]
      rfl
  have hgt : quote ≠ '>' := by rcases hquote with rfl | rfl <;> decide
  rw [tagBody, if_neg hgt, if_pos hquote, hquoted, Option.map_map]
  rfl

/-- So is a written attribute. -/
theorem tagBody_writeAttribute {x : Attribute} (hx : ∀ c ∈ x.name.toList, isUnquoting c = true)
    (t : List Char) :
    tagBody none (writeAttribute x ++ t) =
      (tagBody none t).map fun (a, b) => (writeAttribute x ++ a, b) := by
  have hname : ∀ c ∈ ' ' :: x.name.toList, isUnquoting c = true :=
    List.forall_mem_cons.2 ⟨by decide, hx⟩
  rw [writeAttribute]
  split
  · rw [List.append_nil]
    exact tagBody_unquoting hname t
  · have hsplit : ∀ u : List Char, ' ' :: x.name.toList ++
        '=' :: '"' :: (x.value.toList.flatMap attributeChar ++ ['"']) ++ u =
          (' ' :: x.name.toList ++ ['=']) ++
            ('"' :: (x.value.toList.flatMap attributeChar ++ '"' :: u)) := by
      intro u
      simp
    have hchars : ∀ c ∈ ' ' :: x.name.toList ++ ['='], isUnquoting c = true :=
      List.forall_mem_append.2 ⟨hname, List.forall_mem_singleton.2 (by decide)⟩
    rw [hsplit, tagBody_unquoting hchars, tagBody_quoted (.inl rfl) (quote_not_mem_escaped _),
      Option.map_map]
    simp only [hsplit]
    rfl

/-- So are written attributes in a row. -/
theorem tagBody_written {as : List Attribute}
    (has : ∀ x ∈ as, ∀ c ∈ x.name.toList, isUnquoting c = true) (t : List Char) :
    tagBody none (as.flatMap writeAttribute ++ t) =
      (tagBody none t).map fun (a, b) => (as.flatMap writeAttribute ++ a, b) := by
  induction as with
  | nil => simp
  | cons x as ih =>
    rw [List.flatMap_cons, List.append_assoc, tagBody_writeAttribute (has x List.mem_cons_self),
      ih fun y hy => has y (List.mem_cons_of_mem x hy), Option.map_map]
    simp [Function.comp_def]

end Lexeme

variable {c : Char} {name : List Char}

/-- A written opening tag starts with `<` and the first letter of the name. -/
theorem writeOpenTag_eq (hname : e.name.toList = c :: name) :
    writeOpenTag e = '<' :: c :: (name ++ (e.attrs.flatMap writeAttribute ++ ['>'])) := by
  simp [writeOpenTag, hname]

/-- **Without quotes and `>` in its names an element is written with an opening tag that ends where
it should.** -/
theorem Element.Clean.opensWell (hclean : e.Clean) (he : e.Formed) : e.OpensWell := by
  obtain ⟨c, name, hname, hc⟩ := he.exists_cons
  have hchars : ∀ d ∈ name, isUnquoting d = true := fun d hd =>
    hclean.name d (hname ▸ List.mem_cons_of_mem c hd)
  have hbody : Lexeme.tagBody none (name ++ (e.attrs.flatMap writeAttribute ++ ['>'])) =
      some (name ++ (e.attrs.flatMap writeAttribute ++ ['>']), []) := by
    rw [Lexeme.tagBody_unquoting hchars, Lexeme.tagBody_written hclean.attrs]
    rfl
  rw [OpensWell, writeOpenTag_eq hname, Lexeme.next?_letter hc, hbody]

/-- An opening tag that ends where it should is one lexeme, whatever comes after it. -/
theorem Element.OpensWell.next? (hopens : e.OpensWell) (he : e.Formed) (rest : List Char) :
    Lexeme.next? (writeOpenTag e ++ rest) =
      some (⟨writeOpenTag e, some (.openTag (String.ofList (writeOpenTag e)))⟩, rest) := by
  obtain ⟨c, name, hname, hc⟩ := he.exists_cons
  rw [OpensWell, writeOpenTag_eq hname, Lexeme.next?_letter hc] at hopens
  rw [writeOpenTag_eq hname, List.cons_append, List.cons_append, Lexeme.next?_letter hc]
  split at hopens
  · rename_i body after hbody
    simp only [Option.some.injEq, Prod.mk.injEq, Lexeme.mk.injEq, List.cons.injEq, true_and] at hopens
    obtain ⟨⟨rfl, -⟩, rfl⟩ := hopens
    rw [Lexeme.tagBody_append hbody, List.nil_append]
  · simp at hopens

end Markup
end HtmlCompose
