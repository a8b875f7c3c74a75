/-
# Data brings no markup

What data can reach in a template is kept where it stands, so evaluating a template
keeps its trees safe (`safe_meanForest`).

| data reaches | and stays there because |
| --- | --- |
| a slot | it is escaped, and holds no `<` then |
| the value of an attribute | a value is read back whatever it is |
| no name of an attribute | a bound attribute sets the name that stands behind its colon |
| a text | only texts with braces are filled, and such are left out here |

How often an element is repeated and whether it stays is no matter of markup.  So the
markup of an evaluated template is read as the trees that evaluation has left
(`parse_evaluate`).
-/
import HtmlCompose.Proofs.Directive.InPlace
import HtmlCompose.Proofs.Markup.Parsed
import HtmlCompose.Proofs.Markup.Plain

namespace HtmlCompose

open Markup

namespace Directive

/-! ### Escaped text -/

/-- No character is escaped to a `<`. -/
theorem lt_not_mem_textChar (c : Char) : '<' ∉ textChar c := by
  rw [textChar]
  split
  · decide
  · split
    · decide
    · split
      · decide
      · rename_i hlt _
        rw [List.mem_singleton]
        exact fun h => hlt h.symm

/-- Escaped text holds no `<`. -/
theorem lt_not_mem_escapeText (s : String) : '<' ∉ (escapeText s).toList := by
  rw [escapeText, String.toList_ofList, List.mem_flatMap]
  rintro ⟨c, -, hc⟩
  exact lt_not_mem_textChar c hc

/-- What a slot shows of a value holds no `<`. -/
theorem lt_not_mem_slotText? {data : Data} {e : Element} {text : String}
    (h : slotText? data e = some text) : '<' ∉ text.toList := by
  unfold slotText? at h
  split at h
  · split at h
    · split at h
      · cases h
      · obtain rfl := Option.some.inj h
        exact lt_not_mem_escapeText _
    · cases h
  · cases h

/-! ### Names of attributes -/

/-- A name that an attribute of a safe element can have. -/
def SafeName (s : List Char) : Prop :=
  s ≠ [] ∧ ∀ c ∈ s, OpenTag.isNameChar c = true ∧ isUnquoting c = true

/-- The name that a bound attribute sets is a part of its own. -/
theorem SafeName.bound {name target : String} (h : SafeName name.toList)
    (hbound : boundName? name = some target) : SafeName target.toList := by
  unfold boundName? at hbound
  split at hbound
  · rename_i c rest hname
    obtain rfl := Option.some.inj hbound
    rw [hname] at h
    rw [String.toList_ofList]
    exact ⟨List.cons_ne_nil c rest, fun d hd => h.2 d (List.mem_cons_of_mem _ hd)⟩
  · cases hbound

/-- The attributes of an element have such names. -/
def SafeAttrs (e : Element) : Prop := ∀ a ∈ e.attrs, SafeName a.name.toList

/-- Setting an attribute brings no other name than its own. -/
theorem name_of_mem_put {name value : String} {encoded : Bool} {as : List Attribute}
    {a : Attribute} (h : a ∈ Element.put name value encoded as) :
    a.name = name ∨ ∃ b ∈ as, b.name = a.name := by
  induction as with
  | nil =>
    obtain rfl := List.mem_singleton.1 h
    exact .inl rfl
  | cons b as ih =>
    rw [Element.put] at h
    split at h
    · rcases List.mem_cons.1 h with rfl | h
      · exact .inr ⟨b, List.mem_cons_self, rfl⟩
      · exact .inr ⟨a, List.mem_cons_of_mem b h, rfl⟩
    · rcases List.mem_cons.1 h with rfl | h
      · exact .inr ⟨a, List.mem_cons_self, rfl⟩
      · exact (ih h).imp_right fun ⟨c, hc, hname⟩ => ⟨c, List.mem_cons_of_mem b hc, hname⟩

namespace SafeAttrs

variable {e : Element}

/-- Setting an attribute of a safe name keeps the attributes safe. -/
theorem put (h : SafeAttrs e) {name : String} (hname : SafeName name.toList) (value : String)
    (encoded : Bool) : SafeAttrs { e with attrs := Element.put name value encoded e.attrs } := by
  intro a ha
  rcases name_of_mem_put ha with heq | ⟨b, hb, heq⟩
  · rwa [heq]
  · exact heq ▸ h b hb

/-- Taking attributes away keeps the others safe. -/
theorem removeAttr (h : SafeAttrs e) (name : String) : SafeAttrs (e.removeAttr name) :=
  fun a ha => h a (List.mem_of_mem_eraseP ha)

/-- Filling placeholders changes no names. -/
theorem fillAttributes (h : SafeAttrs e) (data : Data) : SafeAttrs (fillAttributes data e) := by
  intro a ha
  obtain ⟨b, hb, rfl⟩ := List.mem_map.1 ha
  have hname : (if b.encoded then b
      else { b with value := Placeholder.fill false data b.value }).name = b.name := by
    split <;> rfl
  rw [hname]
  exact h b hb

/-- The attributes of an admitted element are safe if those of the element are. -/
theorem admitted (h : SafeAttrs e) (data : Data) : SafeAttrs (admitted data e) :=
  (h.fillAttributes data).removeAttr conditionName

/-- A bound attribute of a safe name sets a safe name. -/
theorem bindOne (h : SafeAttrs e) (data : Data) (isInstance : Bool) {bound : Attribute}
    (hbound : SafeName bound.name.toList) : SafeAttrs (bindOne data isInstance e bound) := by
  have hremoved := h.removeAttr bound.name
  unfold Directive.bindOne
  dsimp only
  split
  · exact hremoved
  · rename_i target htarget
    split
    · exact hremoved.removeAttr target
    · split
      · exact hremoved.put (hbound.bound htarget) _ true
      · exact hremoved.put (hbound.bound htarget) _ false

/-- Carrying out all bound attributes keeps the attributes safe. -/
theorem bindAttributes (h : SafeAttrs e) (data : Data) (isInstance : Bool) :
    SafeAttrs (bindAttributes data isInstance e) := by
  have hbound : ∀ a ∈ e.attrs.filter fun a => (boundName? a.name).isSome,
      SafeName a.name.toList := fun a ha => h a (List.mem_of_mem_filter ha)
  unfold Directive.bindAttributes
  generalize e.attrs.filter _ = bounds at hbound
  induction bounds generalizing e with
  | nil => exact h
  | cons bound bounds ih =>
    obtain ⟨hfirst, hrest⟩ := List.forall_mem_cons.1 hbound
    exact ih (h.bindOne data isInstance hfirst) hrest

end SafeAttrs

/-- A bound attribute does not rename its element. -/
theorem name_bindOne (data : Data) (isInstance : Bool) (e : Element) (bound : Attribute) :
    (bindOne data isInstance e bound).name = e.name := by
  unfold bindOne
  dsimp only
  split
  · rfl
  · split
    · rfl
    · split <;> rfl

/-- Bound attributes do not rename their element. -/
theorem name_bindAttributes (data : Data) (isInstance : Bool) (e : Element) :
    (bindAttributes data isInstance e).name = e.name := by
  unfold bindAttributes
  generalize e.attrs.filter _ = bounds
  induction bounds generalizing e with
  | nil => rfl
  | cons bound bounds ih => exact (ih _).trans (name_bindOne data isInstance e bound)

/-! ### Safe trees -/

/-- The attributes of a safe element have safe names. -/
theorem safeAttrs_of_safe {e : Element} {kids : Forest}
    (h : Content.Safe (.element e) kids) : SafeAttrs e := by
  intro a ha
  obtain ⟨hne, hname⟩ := h.1.1.attrs a ha
  exact ⟨hne, fun c hc => ⟨hname c hc, h.2.1.attrs a ha c hc⟩⟩

/-- An element above the same row stays safe as long as its attributes do. -/
theorem safe_of_safeAttrs {e e' : Element} {kids : Forest} (h : Content.Safe (.element e) kids)
    (hname : e'.name = e.name) (hattrs : SafeAttrs e') : Content.Safe (.element e') kids := by
  obtain ⟨⟨he, hvoid⟩, hclean, hraw⟩ := h
  refine ⟨⟨⟨?_, ?_, fun a ha => ⟨(hattrs a ha).1, fun c hc => ((hattrs a ha).2 c hc).1⟩⟩, ?_⟩,
    ⟨?_, fun a ha c hc => ((hattrs a ha).2 c hc).2⟩, ?_⟩
  · exact hname ▸ he.letter
  · exact hname ▸ he.name
  · exact hname ▸ hvoid
  · exact hname ▸ hclean.name
  · exact hname ▸ hraw

/-- A text without `<` is safe. -/
theorem safe_ofText {s : String} (h : '<' ∉ s.toList) : (Tree.ofText s).OutsideRaw Content.Safe :=
  ⟨⟨rfl, h⟩, fun _ => trivial⟩

/-- What an element means is safe, if the element is when it is kept, whatever attributes it
then has. -/
theorem safe_meanElement (imports : ImportTable) (below : Data → Forest) {e : Element}
    (hattrs : SafeAttrs e)
    (hkept : ∀ data e', e'.name = e.name → SafeAttrs e' →
      (Tree.ofElement e' (below data)).OutsideRaw Content.Safe) (data : Data) :
    Forest.OutsideRaw Content.Safe (meanElement imports below data e) := by
  fun_induction meanElement imports below data e with
  | case1 data e expr hrepeat ih =>
    refine Forest.outsideRaw_iff.2 fun t ht => ?_
    obtain ⟨item, -, ht⟩ := List.mem_flatMap.1 ht
    exact Forest.outsideRaw_iff.1 (ih item (hattrs.removeAttr repeatName) hkept) t ht
  | case2 data e hrepeat =>
    rw [meanSingle]
    split
    · split
      · rename_i text htext
        exact ⟨safe_ofText (lt_not_mem_slotText? htext), trivial⟩
      · refine ⟨hkept data _ ?_ ((hattrs.admitted data).bindAttributes data _), trivial⟩
        exact name_bindAttributes data _ _
    · trivial

/-! ### Texts without placeholders -/

/-- The content is not a text that holds the start of a placeholder. -/
def isLiteral : Content → Bool
  | .text s => !Text.occurs Placeholder.braces s.toList
  | _ => true

/-- No text of a tree holds the start of a placeholder. -/
def Literal (t : Tree) : Prop := ∀ u ∈ t.preorder, isLiteral u.content = true

/-- A tree is literal if its top and the trees below are. -/
theorem literal_node {c : Content} {kids : Forest} :
    Literal (.node c kids) ↔ isLiteral c = true ∧ ∀ t ∈ kids, Literal t :=
  Tree.forall_preorder

/-- A literal text has no placeholder to fill. -/
theorem fill_of_isLiteral {s : String} (h : isLiteral (.text s) = true) (escape : Bool)
    (data : Data) : Placeholder.fill escape data s = s := by
  have hbraces : ¬Text.occurs Placeholder.braces s.toList = true := by simpa [isLiteral] using h
  unfold Placeholder.fill
  exact if_neg hbraces

/-- Raw text means itself. -/
theorem meanForest_rawText (imports : ImportTable) {kids : Forest} {s : String}
    (h : rawText? kids = some s) (hliteral : ∀ t ∈ kids, Literal t) (data : Data) :
    meanForest imports kids data = kids := by
  rcases eq_of_rawText? h with ⟨rfl, -⟩ | rfl
  · rfl
  · have htext := (literal_node.1 (hliteral _ List.mem_cons_self)).1
    rw [meanForest, Tree.ofText, meanTree, fill_of_isLiteral htext, meanForest, List.append_nil]

mutual
/-- A safe tree means safe trees, if no text in it holds a placeholder. -/
theorem safe_meanTree (imports : ImportTable) {t : Tree} (ht : t.OutsideRaw Content.Safe)
    (hliteral : Literal t) (data : Data) :
    Forest.OutsideRaw Content.Safe (meanTree imports t data) := by
  obtain ⟨c, kids⟩ := t
  obtain ⟨hc, hkids⟩ := literal_node.1 hliteral
  cases c with
  | text s =>
    rw [meanTree, fill_of_isLiteral hc]
    exact ⟨ht, trivial⟩
  | element e =>
    rw [meanTree]
    refine safe_meanElement imports _ (safeAttrs_of_safe ht.1) (fun data e' hname hattrs => ?_) data
    have hsafe : Content.Safe (.element e') kids := safe_of_safeAttrs ht.1 hname hattrs
    have hsame : (Content.element e').holdsRawText = (Content.element e).holdsRawText :=
      congrArg isRawText hname
    rcases hraw : (Content.element e).holdsRawText with _ | _
    · have hbelow := safe_meanForest imports (ht.2 hraw) hkids data
      refine ⟨⟨⟨hsafe.1.1, fun hvoid => ?_⟩, hsafe.2.1, fun h => ?_⟩, fun _ => hbelow⟩
      · rw [hsafe.1.2 hvoid]
        rfl
      · exact absurd (h.symm.trans (hsame.trans hraw)) (by decide)
    · obtain ⟨s, hs, -⟩ := ht.1.2.rawText hraw
      rw [meanForest_rawText imports hs hkids]
      refine ⟨hsafe, fun h => ?_⟩
      exact absurd (h.symm.trans (hsame.trans hraw)) (by decide)
  | _ => exact ⟨ht, trivial⟩

/-- **Safe trees mean safe trees**, if no text of theirs holds a placeholder. -/
theorem safe_meanForest (imports : ImportTable) {f : Forest}
    (hf : Forest.OutsideRaw Content.Safe f) (hliteral : ∀ t ∈ f, Literal t) (data : Data) :
    Forest.OutsideRaw Content.Safe (meanForest imports f data) := by
  match f with
  | [] => trivial
  | t :: rest =>
    obtain ⟨ht, hrest⟩ := List.forall_mem_cons.1 hliteral
    have hfirst := Forest.outsideRaw_iff.1 (safe_meanTree imports hf.1 ht data)
    have hothers := Forest.outsideRaw_iff.1 (safe_meanForest imports hf.2 hrest data)
    rw [meanForest]
    refine Forest.outsideRaw_iff.2 fun u hu => ?_
    exact (List.mem_append.1 hu).elim (hfirst u) (hothers u)
end

/-- **Data brings no markup.**  Evaluate a template that is clean and holds no placeholder in its
texts, with any data and imports.  The markup of the result is accepted, and is read as the trees
that evaluation has left: neighbouring texts are one, and nothing else is different but marks. -/
theorem parse_evaluated {source : String} {d : Document} (hparse : Document.parse source = .ok d)
    (hclean : Forest.OutsideRaw Content.Clean d.forest)
    (hliteral : ∀ t ∈ Forest.preorder d.forest, isLiteral t.content = true)
    (imports : ImportTable) (data : Data) :
    ∃ d', Document.parse (d.evaluate imports data).forest.serialize = .ok d' ∧
      d'.forest = Forest.cleared (Forest.tidied (d.evaluate imports data).forest) := by
  obtain ⟨f, hf, rfl⟩ := Document.parse_eq_ok_iff.1 hparse
  obtain ⟨-, hmeans, -⟩ := Document.evaluate_spec imports data f
  rw [Document.forest_ofForest] at hclean hliteral
  have hsafe : Forest.OutsideRaw Content.Safe f :=
    ((Forest.outsideRaw_of_parsed (parse_parsed hf).trees).and hclean).imp
      fun _ _ h => ⟨h.1.formed, h.2⟩
  have hkept : Forest.OutsideRaw Content.Safe ((Document.ofForest f).evaluate imports data).forest := by
    rw [hmeans]
    refine safe_meanForest imports hsafe (fun t ht u hu => ?_) data
    exact hliteral u (Forest.mem_preorder.2 ⟨t, ht, hu⟩)
  exact ⟨_, Document.parse_eq_ok_iff.2 ⟨_, parse_safe hkept, rfl⟩, Document.forest_ofForest _⟩

/-- A template in which data reaches slots and attributes. -/
def hostTemplate : String :=
  "<p use-for=\"x in xs\" title=\"\x7b\x7bx\x7d\x7d\" :id=\"x\"><slot name=\"x\"></slot>,</p>" ++
    "<script>a<b</script>"

/-- Data with markup in it. -/
def hostData : Data := [("xs", .array [.string "\"><b>", .string "", .string "<!--"])]

/-- Markup in the data of a clean template is read back as text and as values. -/
theorem parse_evaluated_host : ∃ d, Document.parse hostTemplate = .ok d ∧
    Forest.OutsideRaw Content.Clean d.forest ∧
    (∀ t ∈ Forest.preorder d.forest, isLiteral t.content = true) ∧
    ∃ d', Document.parse (d.evaluate [] hostData).forest.serialize = .ok d' ∧
      d'.forest = Forest.cleared (Forest.tidied (d.evaluate [] hostData).forest) := by
  have hhost : (Document.parse hostTemplate).toOption.any (fun d : Document =>
      decide (Forest.OutsideRaw Content.Clean d.forest ∧
        ∀ t ∈ Forest.preorder d.forest, isLiteral t.content = true)) = true := by
    decide +kernel
  rcases hparse : Document.parse hostTemplate with fault | d <;> rw [hparse] at hhost
  · cases hhost
  · have hd := of_decide_eq_true hhost
    exact ⟨d, rfl, hd.1, hd.2, parse_evaluated hparse hd.1 hd.2 [] hostData⟩

end Directive
end HtmlCompose
