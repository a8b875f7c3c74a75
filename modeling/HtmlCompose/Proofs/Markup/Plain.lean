/-
# Plain trees are read back as they are

A node is safe when reading can find it and nothing in it could be taken for markup of
another kind: it is then settled (`Content.Clean.settled`).  What markup does not show
of safe trees is where one text ends and its neighbour starts, and which attributes are
marked as bound.  So

| trees | what is read back |
| --- | --- |
| plain: safe, rows tidy | the trees without marks (`parse_plain`) |
| safe | the tidied trees without marks (`parse_safe`) |

The second line comes from the first one, because tidying changes no markup
(`Forest.write_tidied`) and makes safe trees plain ones (`Forest.plain_tidied`).
-/
import HtmlCompose.Proofs.Markup.ReadBack

namespace HtmlCompose
namespace Markup

/-! ### Plain trees -/

/-- A node that nothing else can be made of in reading. -/
def Content.Safe (c : Content) (kids : Forest) : Prop := c.Formed kids ∧ c.Clean kids

/-- A safe node above a tidy row. -/
def Content.Plain (c : Content) (kids : Forest) : Prop := c.Safe kids ∧ Forest.Tidy kids

/-- Trees in a row that are safe throughout, in tidy rows. -/
structure Forest.Plain (f : Forest) : Prop where
  row : f.Tidy
  nodes : Forest.OutsideRaw Content.Plain f

instance (c : Content) (kids : Forest) : Decidable (c.Safe kids) :=
  inferInstanceAs (Decidable (_ ∧ _))

instance (c : Content) (kids : Forest) : Decidable (c.Plain kids) :=
  inferInstanceAs (Decidable (_ ∧ _))

instance (f : Forest) : Decidable f.Plain :=
  decidable_of_iff (f.Tidy ∧ Forest.OutsideRaw Content.Plain f)
    ⟨fun ⟨hrow, hnodes⟩ => ⟨hrow, hnodes⟩, fun ⟨hrow, hnodes⟩ => ⟨hrow, hnodes⟩⟩

/-- Text without `<` is harmless. -/
theorem isHarmless_of_not_mem {s : List Char} (h : '<' ∉ s) : isHarmless s = true := by
  induction s with
  | nil => rfl
  | cons c s ih =>
    obtain ⟨hc, hs⟩ := not_or.1 (List.mem_cons.not.1 h)
    have hne : (c != '<') = true := bne_iff_ne.2 (Ne.symm hc)
    rw [isHarmless, hne, ih hs]
    rfl

/-- Raw text is nothing or one text. -/
theorem eq_of_rawText? {kids : Forest} {s : String} (h : rawText? kids = some s) :
    (kids = [] ∧ s = "") ∨ kids = [.ofText s] := by
  unfold rawText? at h
  split at h
  · exact .inl ⟨rfl, (Option.some.inj h).symm⟩
  · obtain rfl := Option.some.inj h
    exact .inr rfl
  · cases h

/-- Raw text is written as it is. -/
theorem write_of_rawText? {kids : Forest} {s : String} (h : rawText? kids = some s) :
    Forest.write kids = s.toList := by
  rcases eq_of_rawText? h with ⟨rfl, rfl⟩ | rfl
  · rfl
  · rw [Forest.write, Tree.ofText, Tree.write, Forest.write, List.append_nil]

/-- The one text below an element that holds raw text. -/
theorem Content.Clean.rawText {e : Element} {kids : Forest} (h : Content.Clean (.element e) kids)
    (hraw : isRawText e.name = true) :
    ∃ s, rawText? kids = some s ∧ holdsCloser e.name s.toList = false := by
  have hany := h.2 hraw
  rcases hs : rawText? kids with _ | s <;> rw [hs] at hany
  · cases hany
  · exact ⟨s, rfl, by simpa using hany⟩

/-- **A clean node is a settled one.** -/
theorem Content.Clean.settled {c : Content} {kids : Forest} (h : c.Clean kids)
    (hformed : c.Formed kids) : c.Settled kids := by
  cases c with
  | fragment => trivial
  | text s => exact isHarmless_of_not_mem h
  | comment body => trivial
  | doctype s => trivial
  | element e =>
    refine ⟨h.1.opensWell hformed.1, fun _ hend => ?_, fun hraw => ?_⟩
    · have hunquoting := h.1.name '>' hend
      cases hunquoting
    · obtain ⟨s, hs, hcloser⟩ := h.rawText hraw
      rw [write_of_rawText? hs]
      exact hcloser

/-- A plain node can be read back. -/
theorem Content.Plain.readable {c : Content} {kids : Forest} (h : c.Plain kids) :
    c.Readable kids :=
  ⟨h.1.1, h.1.2.settled h.1.1, h.2⟩

/-- A tidy row below an element with raw text is what its characters are read as. -/
theorem ofRawText_write {kids : Forest} {s : String} (htidy : Forest.Tidy kids)
    (h : rawText? kids = some s) :
    Forest.ofRawText (Forest.write kids) = Forest.cleared kids := by
  rw [write_of_rawText? h, Forest.ofRawText]
  rcases eq_of_rawText? h with ⟨rfl, rfl⟩ | rfl
  · rfl
  · have hne : s ≠ "" := by
      rintro rfl
      exact htidy.nonempty _ List.mem_cons_self rfl
    rw [if_neg (by simpa using hne), String.ofList_toList]
    rfl

mutual
/-- **A plain tree is read back without its marks.** -/
theorem Tree.reread_of_plain {t : Tree} (h : t.OutsideRaw Content.Plain) :
    t.reread = t.cleared := by
  obtain ⟨c, kids⟩ := t
  rw [Tree.reread, Tree.cleared]
  rcases hraw : c.holdsRawText with _ | _
  · rw [if_neg Bool.false_ne_true, Forest.reread_of_plain (h.2 hraw)]
  · cases c with
    | element e =>
      obtain ⟨s, hs, -⟩ := h.1.1.2.rawText hraw
      rw [if_pos rfl, ofRawText_write h.1.2 hs]
    | _ => cases hraw

/-- The same for trees in a row. -/
theorem Forest.reread_of_plain {f : Forest} (h : Forest.OutsideRaw Content.Plain f) :
    Forest.reread f = Forest.cleared f := by
  match f with
  | [] => rfl
  | t :: rest =>
    rw [Forest.reread, Forest.cleared, Tree.reread_of_plain h.1, Forest.reread_of_plain h.2]
end

/-- Plain trees are read back without marks, and otherwise as they are. -/
theorem parse_plain {f : Forest} (hf : f.Plain) : parse f.serialize = .ok (Forest.cleared f) := by
  rw [parse_write (hf.nodes.imp fun _ _ => Content.Plain.readable) hf.row,
    Forest.reread_of_plain hf.nodes]

/-- **Reading undoes writing.**  The markup of plain trees is accepted, and the document that is
read from it holds the same trees, without the marks of bound attributes. -/
theorem Document.parse_serialize {f : Forest} (hf : f.Plain) :
    ∃ d, Document.parse f.serialize = .ok d ∧ d.forest = Forest.cleared f :=
  ⟨Document.ofForest (Forest.cleared f), parse_eq_ok_iff.2 ⟨_, parse_plain hf, rfl⟩,
    Document.forest_ofForest (Forest.cleared f)⟩

/-- Trees with characters of markup wherever plain trees may hold them. -/
def busyTrees : Forest :=
  [.node (.doctype "<!DOCTYPE html>") [], .node (.comment " a -- b > <p> ") [],
    .ofElement ⟨"main", [⟨"title", "a > b & \"c\" &amp; </main>", true⟩, ⟨"@click", "<!--", false⟩,
        ⟨"hidden", "", false⟩]⟩
      [.ofText "1 &lt; 2 > 0", .ofElement ⟨"br", []⟩ [], .ofText "'three'",
        .ofElement ⟨"SCRIPT", []⟩ [.ofText "if (a < b) write('</style>');"]],
    .ofElement ⟨"textarea", []⟩ []]

/-- The hypothesis of `parse_serialize` is satisfiable. -/
theorem Document.parse_serialize_busyTrees :
    busyTrees.Plain ∧
      ∃ d, Document.parse busyTrees.serialize = .ok d ∧ d.forest = Forest.cleared busyTrees := by
  have hplain : busyTrees.Plain := by decide +kernel
  exact ⟨hplain, Document.parse_serialize hplain⟩

/-! ### Tidying -/

namespace Forest

/-- A tree put before a row goes, is joined to the first one, or comes before it. -/
theorem join_cases (t : Tree) (f : Forest) :
    (t.content = .text "" ∧ join t f = f) ∨
      (∃ s kids s' kids' rest, t = .node (.text s) kids ∧ s ≠ "" ∧
        f = .node (.text s') kids' :: rest ∧
        join t f = .node (.text (s ++ s')) kids :: rest) ∨
      (t.content ≠ .text "" ∧ (t.isText = true → f.head?.any Tree.isText = false) ∧
        join t f = t :: f) := by
  obtain ⟨c, kids⟩ := t
  cases c with
  | text s =>
    by_cases hs : s = ""
    · exact .inl ⟨congrArg _ hs, if_pos hs⟩
    have hne : (Tree.node (.text s) kids).content ≠ .text "" := by simpa [Tree.content] using hs
    rcases f with _ | ⟨⟨c', kids'⟩, rest⟩
    · exact .inr (.inr ⟨hne, fun _ => rfl, if_neg hs⟩)
    · cases c' with
      | text s' => exact .inr (.inl ⟨s, kids, s', kids', rest, rfl, hs, rfl, if_neg hs⟩)
      | _ => exact .inr (.inr ⟨hne, fun _ => rfl, if_neg hs⟩)
  | _ => exact .inr (.inr ⟨fun h => (by cases h), fun h => (by cases h), rfl⟩)

/-- A tree is joined to a row without a change of the markup. -/
theorem write_join (t : Tree) (f : Forest) : write (join t f) = t.write ++ write f := by
  rcases join_cases t f with ⟨ht, hjoin⟩ | ⟨s, kids, s', kids', rest, rfl, -, rfl, hjoin⟩ |
    ⟨-, -, hjoin⟩
  · obtain ⟨c, kids⟩ := t
    obtain rfl : c = .text "" := ht
    rw [hjoin]
    rfl
  · simp [hjoin, write, Tree.write]
  · rw [hjoin, write]

/-- Joining a tree to a tidy row leaves a tidy row. -/
theorem tidy_join (t : Tree) {f : Forest} (hf : f.Tidy) : (join t f).Tidy := by
  rcases join_cases t f with ⟨-, hjoin⟩ | ⟨s, kids, s', kids', rest, rfl, hs, rfl, hjoin⟩ |
    ⟨hne, hapart, hjoin⟩
  · rwa [hjoin]
  · obtain ⟨-, hapart, hrest⟩ := tidy_cons.1 hf
    rw [hjoin]
    refine tidy_cons.2 ⟨fun hempty => hs ?_, fun _ => hapart rfl, hrest⟩
    exact (String.append_eq_empty_iff.1 (Content.text.inj hempty)).1
  · rw [hjoin]
    exact tidy_cons.2 ⟨hne, hapart, hf⟩

/-- Joining texts that stand side by side makes any row tidy. -/
theorem tidy_tidied (f : Forest) : (tidied f).Tidy := by
  induction f with
  | nil => exact tidy_nil
  | cons t f ih => exact tidy_join _ ih

/-- Two clean texts make a clean text. -/
theorem plain_join {t : Tree} {f : Forest} (ht : t.OutsideRaw Content.Plain)
    (hf : OutsideRaw Content.Plain f) : OutsideRaw Content.Plain (join t f) := by
  rcases join_cases t f with ⟨-, hjoin⟩ | ⟨s, kids, s', kids', rest, rfl, -, rfl, hjoin⟩ |
    ⟨-, -, hjoin⟩
  · rwa [hjoin]
  · obtain ⟨⟨⟨hformed, hclean⟩, htidy⟩, hkids⟩ := ht
    obtain ⟨⟨⟨⟨-, hclean'⟩, -⟩, -⟩, hrest⟩ := hf
    have hboth : Content.Clean (.text (s ++ s')) kids := by
      intro hmem
      rw [String.toList_append, List.mem_append] at hmem
      exact hmem.elim hclean hclean'
    rw [hjoin]
    exact ⟨⟨⟨⟨hformed, hboth⟩, htidy⟩, hkids⟩, hrest⟩
  · rw [hjoin]
    exact ⟨ht, hf⟩

end Forest

/-- Raw text stays what it is when texts are joined. -/
theorem rawText?_tidied {kids : Forest} {s : String} (h : rawText? kids = some s) :
    rawText? (Forest.tidied kids) = some s := by
  rcases eq_of_rawText? h with ⟨rfl, rfl⟩ | rfl
  · rfl
  · by_cases hs : s = ""
    · rw [hs]
      rfl
    · have hself : Forest.tidied [.ofText s] = [.ofText s] := if_neg hs
      rw [hself]
      rfl

/-- A safe node stays safe when texts below it are joined. -/
theorem Content.Safe.tidied {c : Content} {kids : Forest} (h : c.Safe kids) :
    c.Safe (Forest.tidied kids) := by
  obtain ⟨hformed, hclean⟩ := h
  have hnil : kids = [] → Forest.tidied kids = [] := by
    rintro rfl
    rfl
  cases c with
  | fragment => exact hformed.elim
  | text s => exact ⟨hnil hformed, hclean⟩
  | comment body => exact ⟨⟨hnil hformed.1, hformed.2⟩, trivial⟩
  | doctype s => exact ⟨⟨hnil hformed.1, hformed.2⟩, trivial⟩
  | element e =>
    refine ⟨⟨hformed.1, fun hvoid => hnil (hformed.2 hvoid)⟩, hclean.1, fun hraw => ?_⟩
    obtain ⟨s, hs, hcloser⟩ := hclean.rawText hraw
    rw [rawText?_tidied hs, Option.any_some, hcloser]
    rfl

mutual
/-- **A safe tree becomes a plain one** once texts that stand side by side are joined. -/
theorem Tree.plain_tidied {t : Tree} (h : t.OutsideRaw Content.Safe) :
    t.tidied.OutsideRaw Content.Plain := by
  obtain ⟨c, kids⟩ := t
  exact ⟨⟨h.1.tidied, Forest.tidy_tidied kids⟩, fun hraw => Forest.plain_tidied (h.2 hraw)⟩

/-- The same for trees in a row. -/
theorem Forest.plain_tidied {f : Forest} (h : Forest.OutsideRaw Content.Safe f) :
    Forest.OutsideRaw Content.Plain (Forest.tidied f) := by
  match f with
  | [] => trivial
  | t :: rest => exact Forest.plain_join (Tree.plain_tidied h.1) (Forest.plain_tidied h.2)
end

mutual
/-- Joining texts does not change the markup. -/
theorem Tree.write_tidied {t : Tree} (h : t.OutsideRaw Content.Safe) : t.tidied.write = t.write := by
  obtain ⟨c, kids⟩ := t
  cases c with
  | fragment => exact h.1.1.elim
  | element e =>
    have hkids : Forest.write (Forest.tidied kids) = Forest.write kids := by
      rcases hraw : isRawText e.name with _ | _
      · exact Forest.write_tidied (h.2 hraw)
      · obtain ⟨s, hs, -⟩ := h.1.2.rawText hraw
        rw [write_of_rawText? hs, write_of_rawText? (rawText?_tidied hs)]
    rw [Tree.tidied, Tree.write, Tree.write, hkids]
    rcases hvoid : isVoid e.name with _ | _
    · rfl
    · rw [h.1.1.2 hvoid]
      rfl
  | _ => rfl

/-- Tidying safe trees changes no markup. -/
theorem Forest.write_tidied {f : Forest} (h : Forest.OutsideRaw Content.Safe f) :
    Forest.write (Forest.tidied f) = Forest.write f := by
  match f with
  | [] => rfl
  | t :: rest =>
    rw [Forest.tidied, Forest.write_join, Tree.write_tidied h.1, Forest.write_tidied h.2,
      Forest.write]
end

/-- **Safe trees are read back tidied.** -/
theorem parse_safe {f : Forest} (hf : Forest.OutsideRaw Content.Safe f) :
    parse f.serialize = .ok (Forest.cleared (Forest.tidied f)) := by
  have hplain : (Forest.tidied f).Plain := ⟨Forest.tidy_tidied f, Forest.plain_tidied hf⟩
  rw [Forest.serialize, ← Forest.write_tidied hf]
  exact parse_plain hplain

end Markup
end HtmlCompose
