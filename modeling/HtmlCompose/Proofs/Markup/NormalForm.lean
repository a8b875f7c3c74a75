/-
# When reading and writing settle

A source is read, the trees are written, and the result is read again.  The markup that
is written then is the one that was read, if the trees are settled (`serialize_parse`):
what reading makes is formed and tidy (`parse_parsed`), so only what could be taken for
markup of another kind is left to ask for.

It has to be asked for (`not_normal_form`).  Reading drops closing tags that close
nothing, and what stood around one becomes one text, which may hold a tag that the source
did not.  A tag that never ends is text, and ends at the next closing tag when it is
written inside of an element.  Names may hold quotes and `>`.  Raw text ends where a
closing tag merely starts like its own, and may then hold elements.

At the end of a document a tag that never ends does no harm, because nothing is written
behind it (`parse_settled`).
-/
import HtmlCompose.Proofs.Markup.Parsed

namespace HtmlCompose
namespace Markup

/-! ### Writing what has been read back -/

/-- Clearing the flags of an element does not show in its opening tag. -/
theorem writeOpenTag_cleared (e : Element) : writeOpenTag e.cleared = writeOpenTag e := by
  rw [writeOpenTag, Element.cleared, List.flatMap_map]
  rfl

/-- Raw text is written as it is. -/
theorem write_ofRawText (s : List Char) : Forest.write (Forest.ofRawText s) = s := by
  rw [Forest.ofRawText]
  split
  · rename_i hs
    exact (List.isEmpty_iff.1 hs).symm
  · rw [Forest.write, Tree.ofText, Tree.write, Forest.write, String.toList_ofList, List.append_nil]

mutual
/-- What a tree is read back as is written as the tree is. -/
theorem Tree.write_reread {t : Tree} (h : t.OutsideRaw Content.Formed) :
    t.reread.write = t.write := by
  obtain ⟨c, kids⟩ := t
  cases c with
  | fragment => exact h.1.elim
  | element e =>
    have hkids : Forest.write (if isRawText e.name then Forest.ofRawText (Forest.write kids)
        else Forest.reread kids) = Forest.write kids := by
      split
      · exact write_ofRawText _
      · rename_i hraw
        exact Forest.write_reread (h.2 (Bool.not_eq_true _ ▸ hraw))
    have hname : isVoid e.cleared.name = isVoid e.name := rfl
    rw [Tree.reread, Content.cleared, Content.holdsRawText, Tree.write, Tree.write, hkids,
      writeOpenTag_cleared, hname]
    rcases hvoid : isVoid e.name with _ | _
    · rfl
    · obtain rfl := h.1.2 hvoid
      have hnone : (if isRawText e.name then Forest.ofRawText (Forest.write [])
          else Forest.reread []) = [] := by
        split <;> rfl
      rw [hnone]
      rfl
  | _ => rfl

/-- Trees that are read back have the markup that they are read from. -/
theorem Forest.write_reread {f : Forest} (h : Forest.OutsideRaw Content.Formed f) :
    Forest.write (Forest.reread f) = Forest.write f := by
  match f with
  | [] => rfl
  | t :: rest =>
    rw [Forest.reread, Forest.write, Forest.write, Tree.write_reread h.1, Forest.write_reread h.2]
end

/-! ### Settled documents -/

/-- The tree is a text that is read as text when nothing comes behind it. -/
def Tree.endsAsText : Tree → Bool
  | .node (.text s) [] => (Lexeme.all s.toList).all Lexeme.isText
  | _ => false

/-- The nodes outside raw text are settled, but the last tree may also be a text that needs nothing
behind it. -/
def Forest.Settled (f : Forest) : Prop :=
  Forest.OutsideRaw Content.Settled f ∨
    Forest.OutsideRaw Content.Settled f.dropLast ∧ f.getLast?.any Tree.endsAsText = true

instance (f : Forest) : Decidable f.Settled := inferInstanceAs (Decidable (_ ∨ _))

namespace Forest

/-- Rows are written one after the other. -/
theorem write_append (f g : Forest) : write (f ++ g) = write f ++ write g := by
  induction f with
  | nil => rfl
  | cons t f ih => rw [List.cons_append, write, write, ih, List.append_assoc]

/-- A row is read back tree by tree. -/
theorem reread_eq_map (f : Forest) : reread f = f.map Tree.reread := by
  induction f with
  | nil => rfl
  | cons t f ih => rw [reread, ih, List.map_cons]

/-- A row that ends as text has a text without markup at its end. -/
theorem exists_of_endsAsText {f : Forest} (h : f.getLast?.any Tree.endsAsText = true) :
    ∃ s, f = f.dropLast ++ [.ofText s] ∧ (Lexeme.all s.toList).all Lexeme.isText = true := by
  rcases ht : f.getLast? with _ | t <;> rw [ht] at h
  · cases h
  rw [Option.any_some] at h
  unfold Tree.endsAsText at h
  split at h
  · exact ⟨_, (List.dropLast_append_getLast? _ ht).symm, h⟩
  · cases h

/-- Before a text at the end of a tidy row there is no other text. -/
theorem tidy_append_text {f : Forest} {s : String} (h : Tidy (f ++ [.ofText s])) :
    Tidy f ∧ s ≠ "" ∧ f.getLast?.any Tree.isText = false := by
  obtain ⟨hne, hapart⟩ := h
  obtain ⟨hf, -, hlast⟩ := List.isChain_append.1 hapart
  refine ⟨⟨fun t ht => hne t (List.mem_append_left _ ht), hf⟩, ?_, ?_⟩
  · rintro rfl
    exact hne (.ofText "") (List.mem_append_right _ List.mem_cons_self) rfl
  · rcases ht : f.getLast? with _ | t
    · rfl
    · have htext := hlast t ht (.ofText s) rfl
      rw [Option.any_some, Bool.eq_false_iff]
      exact fun h => htext ⟨h, rfl⟩

end Forest

/-- **Settled trees that reading has made are read back.** -/
theorem parse_settled {f : Forest} (hparsed : Forest.Parsed f) (hf : f.Settled) :
    parse f.serialize = .ok (Forest.reread f) := by
  have hreadable {g : Forest} (hg : ∀ t ∈ g, t.Parsed)
      (hsettled : Forest.OutsideRaw Content.Settled g) : Forest.OutsideRaw Content.Readable g :=
    ((Forest.outsideRaw_of_parsed hg).and hsettled).imp fun _ _ h => ⟨h.1.formed, h.2, h.1.row⟩
  rcases hf with hsettled | ⟨hsettled, hlast⟩
  · exact parse_write (hreadable hparsed.trees hsettled) hparsed.row
  · obtain ⟨s, hsplit, hs⟩ := Forest.exists_of_endsAsText hlast
    generalize f.dropLast = g at hsplit hsettled
    subst hsplit
    obtain ⟨htidy, hne, hlast⟩ := Forest.tidy_append_text hparsed.row
    have hg := hreadable (fun t ht => hparsed.trees t (List.mem_append_left _ ht)) hsettled
    have hread := Forest.parseFrom_write hg htidy (b := {}) (fun _ => rfl) s.toList
      (fun h => absurd h (by rw [hlast]; exact Bool.false_ne_true)) 0
    have hends : (({} : Builder).addAll (Forest.reread g)).endsInText = false := by
      rw [Builder.endsInText, Builder.addAll, List.append_nil, List.head?_reverse,
        Forest.reread_eq_map, List.getLast?_map, Option.any_map]
      simpa only [Function.comp_def, Tree.isText_reread] using hlast
    have hne' : s.toList ≠ [] := fun h => hne (String.toList_eq_nil_iff.1 h)
    have hwrite : Forest.write [.ofText s] = s.toList := by
      rw [Forest.write, Tree.ofText, Tree.write, Forest.write, List.append_nil]
    have hreread : Forest.reread (g ++ [.ofText s]) = Forest.reread g ++ [.ofText s] := by
      rw [Forest.reread_eq_map, Forest.reread_eq_map, List.map_append]
      rfl
    rw [parse, Forest.serialize, String.toList_ofList, Forest.write_append, hwrite, hread,
      parseFrom_lexemes _ hs hne', Builder.addText_eq hends, String.ofList_toList,
      Builder.addAll_add, hreread]
    exact congrArg Except.ok (Builder.finish_addAll _)

namespace Document

/-- **Reading and writing settle.** -/
theorem serialize_parse {source : String} {d : Document} (hparse : parse source = .ok d)
    (hsettled : d.forest.Settled) :
    ∃ d', parse d.forest.serialize = .ok d' ∧ d'.forest.serialize = d.forest.serialize := by
  obtain ⟨f, hf, rfl⟩ := parse_eq_ok_iff.1 hparse
  rw [forest_ofForest] at hsettled ⊢
  have hparsed := parse_parsed hf
  have hformed : Forest.OutsideRaw Content.Formed f :=
    (Forest.outsideRaw_of_parsed hparsed.trees).imp fun _ _ h => h.formed
  refine ⟨ofForest (Forest.reread f), parse_eq_ok_iff.2 ⟨_, parse_settled hparsed hsettled, rfl⟩, ?_⟩
  rw [forest_ofForest, Forest.serialize, Forest.serialize, Forest.write_reread hformed]

/-- The hypotheses are satisfiable with strays, an element that closes itself, a value without
quotes, and a tag that never ends. -/
theorem serialize_parse_strays : ∃ d, parse "1<2 <p class=q>x< 1<br/></p>y <i" = .ok d ∧
    d.forest.Settled ∧
    ∃ d', parse d.forest.serialize = .ok d' ∧ d'.forest.serialize = d.forest.serialize := by
  have hsettled : (parse "1<2 <p class=q>x< 1<br/></p>y <i").toOption.any
      (fun d => decide d.forest.Settled) = true := by decide +kernel
  rcases hparse : parse "1<2 <p class=q>x< 1<br/></p>y <i" with fault | d <;>
    rw [hparse] at hsettled
  · cases hsettled
  · have hd : d.forest.Settled := of_decide_eq_true hsettled
    exact ⟨d, rfl, hd, serialize_parse hparse hd⟩

/-- The markup that reading a source and writing it again gives, if the source is accepted. -/
def respelled? (source : String) : Option String :=
  (parse source).toOption.map fun d => d.forest.serialize

/-- The respelling of a source is the markup of its document. -/
theorem respelled?_eq_some_iff {source t : String} :
    respelled? source = some t ↔ ∃ d, parse source = .ok d ∧ d.forest.serialize = t := by
  rw [respelled?]
  rcases parse source with fault | d <;> simp [Except.toOption]

/-- **Reading and writing need not settle.**  What is written may be read as other trees, or not be
accepted at all: joined texts make a tag or a comment, a tag that never ends meets a closing tag,
quotes and `>` stand in names, and raw text holds an element. -/
theorem not_normal_form :
    (¬∀ source d, parse source = .ok d →
      ∃ d', parse d.forest.serialize = .ok d' ∧ d'.forest.serialize = d.forest.serialize) ∧
    (respelled? "<</x>b>" = some "<b>" ∧ respelled? "<b>" = some "<b></b>") ∧
    (respelled? "<</x>!-- " = some "<!-- " ∧ respelled? "<!-- " = none) ∧
    (respelled? "<p><a" = some "<p><a</p>" ∧
      respelled? "<p><a</p>" = some "<p><a< p></a<></p>") ∧
    (respelled? "<a\"b x=> c\">" = some "<a\"b x=\">\" c\"></a\"b>" ∧
      respelled? "<a\"b x=\">\" c\"></a\"b>" = some "<a\"b x>\" c\"></a\"b>") ∧
    (respelled? "<b'>'>" = some "<b'>'></b'>'>" ∧
      respelled? "<b'>'></b'>'>" = some "<b'>'>'></b'>'>") ∧
    (respelled? "<script></scriptx><script></script>" = some "<script><script></script></script>" ∧
      respelled? "<script><script></script></script>" = some "<script><script></script>") := by
  have hjoined : respelled? "<</x>b>" = some "<b>" ∧ respelled? "<b>" = some "<b></b>" := by
    decide +kernel
  refine ⟨fun hnormal => ?_, hjoined, by decide +kernel, by decide +kernel, by decide +kernel,
    by decide +kernel, by decide +kernel⟩
  obtain ⟨d, hd, hwritten⟩ := respelled?_eq_some_iff.1 hjoined.1
  obtain ⟨d', hd', hsame⟩ := hnormal _ d hd
  rw [hwritten] at hd' hsame
  have hb : respelled? "<b>" = some "<b>" := respelled?_eq_some_iff.2 ⟨d', hd', hsame⟩
  rw [hjoined.2] at hb
  exact absurd hb (by decide)

end Document
end Markup
end HtmlCompose
