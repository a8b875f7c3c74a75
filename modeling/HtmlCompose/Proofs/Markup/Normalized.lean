/-
# Documents that reading makes

Whatever a source is, the document that grows along it is normalized: its nodes are such as
a source can hold, its texts are joined as far as they can be, and its nodes are numbered in
preorder, each at one place (`normalized_of_parse`).

What is known of the trees (`parse_parsed`) carries over to the nodes, because every node of
a shown tree stands for a subtree, with the contents of the subtrees directly below it as the
contents of its children (`Shows.exists_subtree`).
-/
import HtmlCompose.Proofs.Markup.Growth
import HtmlCompose.Proofs.Markup.Parsed
import HtmlCompose.Proofs.Markup.Walks

namespace HtmlCompose
namespace Markup
namespace Document

variable {d : Document} {h : Handle}

/-- The nodes are such as a source can hold, and they are numbered in preorder from the root on. -/
structure Normalized (d : Document) : Prop where
  texts : ∀ h < d.size, d.content h ≠ .text ""
  apart : ∀ h < d.size, (d.children h).IsChain fun x y =>
    ¬((d.content x).isText = true ∧ (d.content y).isText = true)
  voids : ∀ h < d.size, ∀ e, d.content h = .element e → isVoid e.name = true → d.children h = []
  comments : ∀ h < d.size, ∀ body, d.content h = .comment body →
    ¬['-', '-', '>'] <:+: body.toList
  attributes : ∀ h < d.size, ∀ e, d.content h = .element e → ∀ a ∈ e.attrs,
    a.name ≠ "" ∧ (∀ c ∈ a.name.toList, Text.isBlank c = false ∧ c ≠ '=' ∧ c ≠ '/') ∧
      a.encoded = false
  fragment : ∀ h < d.size, d.content h = .fragment ↔ h = root
  /-- every node but the root is once a child of one node -/
  attached : ∀ h < d.size, h ≠ root → ∃ p, ∀ q, (d.children q).count h = if q = p then 1 else 0
  preorder : d.descendants root = List.range' 1 (d.size - 1)

/-- A node is once a child of its parent, and of no other node. -/
theorem WellFormed.attached (hd : d.WellFormed) {p : Handle} (hp : d.parent? h = some p) :
    ∀ q, (d.children q).count h = if q = p then 1 else 0 := by
  intro q
  split
  · rename_i heq
    exact List.count_eq_one_of_mem (hd.nodup q) ((hd.linked q h).2 (heq ▸ hp))
  · rename_i hne
    refine List.count_eq_zero.2 fun hmem => hne ?_
    exact Option.some.inj (((hd.linked q h).1 hmem).symm.trans hp)

section Parsed

variable {f : Forest}

/-- Every node but the root has a parent. -/
theorem exists_parent (hh : h < (ofForest f).size) (hroot : h ≠ root) :
    ∃ p, (ofForest f).parent? h = some p := by
  have hmem : h ∈ (ofForest f).descendants root := by
    rw [descendants_ofForest, List.mem_range'_1]
    exact ⟨Nat.pos_of_ne_zero hroot, (Nat.add_sub_cancel' (Nat.one_le_of_lt hh)).symm ▸ hh⟩
  rw [(wellFormed_ofForest f).mem_descendants_iff (show root < _ from Nat.zero_lt_of_lt hh),
    isWithin_iff_below] at hmem
  rcases hmem with hp | ⟨hp, -⟩
  · exact ⟨_, hp⟩
  · exact ⟨_, hp⟩

/-- A node of the document of some trees is the root above them, or such as they are. -/
theorem root_or_parsed (hf : Forest.Parsed f) (hh : h < (ofForest f).size) :
    ∃ kids : Forest, kids.Tidy ∧
      ((ofForest f).children h).map (ofForest f).content = kids.map Tree.content ∧
      (h = root ∧ (ofForest f).content h = .fragment ∨
        h ≠ root ∧ ((ofForest f).content h).Parsed kids) := by
  obtain ⟨Ps, rfl, hshows, hfresh⟩ := ofForest_fresh f
  rcases Nat.eq_zero_or_pos h with rfl | hpos
  · have hchildren : (ofForest (Placed.forest Ps)).children 0 = Ps.map Placed.handle :=
      congrArg Node.children hshows.2.1
    refine ⟨_, hf.row, ?_, .inl ⟨rfl, congrArg Node.content hshows.2.1⟩⟩
    rw [hchildren, hshows.2.2.map_content_handle]
  · have hmem : h ∈ Placed.allHandles Ps := by
      rw [hfresh.handles, List.mem_range'_1, ← hfresh.size]
      exact ⟨hpos, hh⟩
    obtain ⟨u, hu, hcontent, hchildren⟩ := hshows.2.2.exists_subtree hmem
    obtain ⟨t, ht, hut⟩ := Forest.mem_preorder.1 hu
    have hparsed := hf.trees t ht u hut
    exact ⟨u.children, hparsed.row, hchildren, .inr ⟨hpos.ne', hcontent ▸ hparsed⟩⟩

/-- A node that is no fragment has the content and children of a tree that was parsed. -/
theorem exists_parsed_of_content (hf : Forest.Parsed f) (hh : h < (ofForest f).size) {c : Content}
    (hc : (ofForest f).content h = c) (hne : c ≠ .fragment) : ∃ kids : Forest,
      ((ofForest f).children h).map (ofForest f).content = kids.map Tree.content ∧
      c.Parsed kids := by
  obtain ⟨kids, -, hchildren, ⟨-, hroot⟩ | ⟨-, hparsed⟩⟩ := root_or_parsed hf hh
  · exact absurd (hc.symm.trans hroot) hne
  · exact ⟨kids, hchildren, hc ▸ hparsed⟩

/-- Which row a text stands in is known from its parent only. -/
theorem content_ne_empty (hf : Forest.Parsed f) (hh : h < (ofForest f).size) :
    (ofForest f).content h ≠ .text "" := by
  intro htext
  obtain ⟨-, -, -, ⟨-, hfragment⟩ | ⟨hroot, -⟩⟩ := root_or_parsed hf hh
  · cases htext.symm.trans hfragment
  · have hd := wellFormed_ofForest f
    obtain ⟨p, hp⟩ := exists_parent hh hroot
    obtain ⟨kids, hrow, hchildren, -⟩ := root_or_parsed hf (hd.parent_lt hp)
    have hmem := List.mem_map_of_mem (f := (ofForest f).content) ((hd.linked p h).2 hp)
    rw [hchildren] at hmem
    obtain ⟨t, ht, hcontent⟩ := List.mem_map.1 hmem
    exact hrow.nonempty t ht (hcontent.trans htext)

/-- No two texts stand side by side. -/
theorem isChain_children (hf : Forest.Parsed f) (hh : h < (ofForest f).size) :
    ((ofForest f).children h).IsChain fun x y =>
      ¬(((ofForest f).content x).isText = true ∧ ((ofForest f).content y).isText = true) := by
  obtain ⟨kids, hrow, hchildren, -⟩ := root_or_parsed hf hh
  have hapart : (kids.map Tree.content).IsChain fun c c' =>
      ¬(c.isText = true ∧ c'.isText = true) := (List.isChain_map _).2 hrow.apart
  rw [← hchildren] at hapart
  exact (List.isChain_map _).1 hapart

/-- The document of trees that are as reading makes them is normalized. -/
theorem normalized_ofForest (hf : Forest.Parsed f) : (ofForest f).Normalized where
  texts h hh := content_ne_empty hf hh
  apart h hh := isChain_children hf hh
  voids h hh e he hvoid := by
    obtain ⟨kids, hchildren, hparsed⟩ := exists_parsed_of_content hf hh he nofun
    rw [hparsed.formed.2 hvoid] at hchildren
    exact List.map_eq_nil_iff.1 hchildren
  comments h hh body hbody := by
    obtain ⟨kids, -, hparsed⟩ := exists_parsed_of_content hf hh hbody nofun
    exact Text.occurs_eq_false_iff.1 hparsed.formed.2
  attributes h hh e he a ha := by
    obtain ⟨kids, -, hparsed⟩ := exists_parsed_of_content hf hh he nofun
    obtain ⟨hne, hchars⟩ := hparsed.formed.1.attrs a ha
    refine ⟨fun hempty => hne (by rw [hempty]; rfl), fun c hc => ?_, hparsed.unmarked e rfl a ha⟩
    have hchar := hchars c hc
    simp only [OpenTag.isNameChar, Bool.and_eq_true, Bool.not_eq_true', bne_iff_ne] at hchar
    exact ⟨hchar.1.1, hchar.1.2, hchar.2⟩
  fragment h hh := by
    obtain ⟨kids, -, -, ⟨hroot, hfragment⟩ | ⟨hroot, hparsed⟩⟩ := root_or_parsed hf hh
    · exact iff_of_true hfragment hroot
    · refine iff_of_false (fun hfragment => ?_) hroot
      rw [hfragment] at hparsed
      exact hparsed.formed
  attached h hh hroot := by
    obtain ⟨p, hp⟩ := exists_parent hh hroot
    exact ⟨p, (wellFormed_ofForest f).attached hp⟩
  preorder := descendants_ofForest f

end Parsed

/-- **The document of a source is normalized.**  It is the one that grows along the source, where
each node has the next handle when it is created. -/
theorem normalized_of_parse {source : String} (hparse : parse source = .ok d) :
    grow source = .ok d ∧ d.Normalized := by
  obtain ⟨f, hread, rfl⟩ := parse_eq_ok_iff.1 hparse
  exact ⟨(grow_eq_parse source).trans hparse, normalized_ofForest (parse_parsed hread)⟩

/-- The hypothesis is satisfiable with a text of several pieces, a closing tag that closes two
elements and one that closes none, an empty element and raw text. -/
theorem normalized_of_parse_stray : ∃ d : Document,
    parse "<ul><li class=a =b>1 < 2</i>3<br></ul>&lt;<!--c--><title></t></title>" = .ok d ∧
      d.size = 9 ∧ d.textContent root = "1 < 23&lt;</t>" ∧
      grow "<ul><li class=a =b>1 < 2</i>3<br></ul>&lt;<!--c--><title></t></title>" = .ok d ∧
      d.Normalized := by
  have hany : ((parse "<ul><li class=a =b>1 < 2</i>3<br></ul>&lt;<!--c--><title></t></title>"
      ).toOption.any fun d => decide (d.size = 9 ∧ d.textContent root = "1 < 23&lt;</t>")) = true := by
    decide +kernel
  obtain ⟨d, hparse, hsize, htext⟩ := exists_ok_of_any hany
  exact ⟨d, hparse, hsize, htext, normalized_of_parse hparse⟩

end Document
end Markup
end HtmlCompose
