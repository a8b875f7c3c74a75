/-
# Each used class has its rule once

A stylesheet is written along a walk, with a memory of the classes that were met.  What the
walk writes is told by the list of all uses of classes, in document order: at the first use
of each class its rule, if there is one (`emit_eq_write`).

So a stylesheet is the preflight and then rules of which three things hold: no selector
stands twice, there is a rule for a class if and only if the class is used and has
declarations, and a class that has a rule before another one is used before the other one is
used at all (`generate_rules`).  The place of a use is the position of the element in
document order and the position of the class among those of the element's first `class`
attribute.
-/
import HtmlCompose.Enhance.Emission
import HtmlCompose.Proofs.Markup.Parsed
import HtmlCompose.Proofs.Markup.Walks

namespace HtmlCompose
namespace Stylesheet

/-! ### The table -/

/-- An entry is filled in where its name is not yet taken. -/
theorem get?_fillIn (r : Record String) (entry : String × String) (name : String) :
    Record.get? (fillIn r entry) name =
      (Record.get? r name).or (if entry.1 = name then some entry.2 else none) := by
  unfold fillIn
  split
  · rename_i declarations hsome
    split
    · rename_i heq
      rw [← heq, hsome, Option.some_or]
    · rw [Option.or_none]
  · rename_i hnone
    rw [Record.get?_insert]
    split
    · rename_i heq
      rw [← heq, hnone, Option.none_or]
    · rw [Option.or_none]

/-- Entries are filled in where their names are not yet taken, the first of each name. -/
theorem get?_foldl_fillIn (entries : List (String × String)) (r : Record String) (name : String) :
    Record.get? (entries.foldl fillIn r) name =
      (Record.get? r name).or (Record.get? entries name) := by
  induction entries generalizing r with
  | nil => rw [List.foldl_nil, Record.get?_nil, Option.or_none]
  | cons entry entries ih =>
    obtain ⟨key, value⟩ := entry
    rw [List.foldl_cons, ih, get?_fillIn, Option.or_assoc, Record.get?_cons]
    split <;> simp

/-- **Looking up in the table that is made once is looking up in the one record, then in the
other.** -/
theorem get?_table (config : Config) (name : String) :
    Record.get? config.table name = config.rule? name := by
  unfold Config.table Config.rule?
  split
  · rw [get?_foldl_fillIn]
    cases Record.get? config.rules name <;> rfl
  · cases Record.get? config.rules name <;> rfl

/-- A class has its configured declarations, or else the built-in ones if those are switched on. -/
theorem rule?_eq_some_iff {config : Config} {name declarations : String} :
    config.rule? name = some declarations ↔
      Record.get? config.rules name = some declarations ∨
        Record.get? config.rules name = none ∧ config.defaults = true ∧
          Record.get? builtin name = some declarations := by
  unfold Config.rule?
  cases Record.get? config.rules name <;> cases config.defaults <;> simp

/-! ### First occurrences -/

section FirstOccurrences

variable {seen l : List (List Char)} {a b : List Char}

/-- The first occurrences are the items that have not been seen before. -/
theorem mem_firstOccurrences : a ∈ firstOccurrences seen l ↔ a ∈ l ∧ a ∉ seen := by
  induction l generalizing seen with
  | nil => simp [firstOccurrences]
  | cons c l ih =>
    rw [firstOccurrences]
    by_cases hc : seen.contains c = true
    · rw [if_pos hc, ih, List.mem_cons]
      have hmem : c ∈ seen := List.contains_iff_mem.1 hc
      refine ⟨fun h => ⟨.inr h.1, h.2⟩, fun ⟨h, hnot⟩ => ⟨h.resolve_left ?_, hnot⟩⟩
      rintro rfl
      exact hnot hmem
    · rw [if_neg hc, List.mem_cons, ih, List.mem_cons, List.mem_cons, not_or]
      have hmem : c ∉ seen := fun h => hc (List.contains_iff_mem.2 h)
      by_cases hac : a = c
      · simp [hac, hmem]
      · simp [hac]

/-- An item of a list occurs before another one occurs at all. -/
def Precedes (l : List (List Char)) (a b : List Char) : Prop :=
  ∃ before behind, l = before ++ a :: behind ∧ b ∉ before ∧ b ≠ a

/-- What precedes in a list precedes behind another item too, if it does so there. -/
theorem Precedes.cons {c : List Char} (h : Precedes l a b) (hb : b ≠ c) :
    Precedes (c :: l) a b := by
  obtain ⟨before, behind, rfl, hbefore, hne⟩ := h
  exact ⟨c :: before, behind, rfl, List.not_mem_cons_of_ne_of_not_mem hb hbefore, hne⟩

/-- **The first occurrences stand in the order of the list.** -/
theorem pairwise_firstOccurrences : (firstOccurrences seen l).Pairwise (Precedes l) := by
  induction l generalizing seen with
  | nil => exact .nil
  | cons c l ih =>
    have hrest {seen : List (List Char)} (hc : c ∈ seen) :
        (firstOccurrences seen l).Pairwise (Precedes (c :: l)) := by
      refine ih.imp_of_mem fun _ hb h => h.cons ?_
      rintro rfl
      exact (mem_firstOccurrences.1 hb).2 hc
    rw [firstOccurrences]
    by_cases hc : seen.contains c = true
    · rw [if_pos hc]
      exact hrest (List.contains_iff_mem.1 hc)
    · rw [if_neg hc]
      refine List.pairwise_cons.2 ⟨fun b hb => ⟨[], l, rfl, List.not_mem_nil, ?_⟩,
        hrest List.mem_cons_self⟩
      rintro rfl
      exact (mem_firstOccurrences.1 hb).2 List.mem_cons_self

end FirstOccurrences

/-! ### The walk -/

/-- Nothing is put in front for a blank text, nor without one. -/
theorem writePreflight_eq (preflight : Option String) :
    writePreflight preflight =
      if Text.trim (preflight.getD "").toList = [] then []
      else Text.trim (preflight.getD "").toList ++ ['\n'] := by
  cases preflight with
  | none => rfl
  | some text => simp only [writePreflight, Option.getD_some, List.isEmpty_iff]

/-- What is written for a class. -/
def ruleText (config : Config) (name : List Char) : List Char :=
  match config.rule? (String.ofList name) with
  | some declarations => writeRule name declarations
  | none => []

/-- A stylesheet is the preflight, and then what is written for the first use of each class. -/
theorem write_eq (config : Config) (f : Markup.Forest) :
    write config f = writePreflight config.preflight ++
      (firstOccurrences [] (usedClasses f)).flatMap (ruleText config) := rfl

/-- **Meeting classes writes the rules of those that are new.** -/
theorem text_foldl_meet (config : Config) (names : List (List Char)) (s : Sheet) :
    (names.foldl (Sheet.meet config.table) s).text =
      s.text ++ (firstOccurrences s.seen names).flatMap (ruleText config) := by
  induction names generalizing s with
  | nil => rw [firstOccurrences, List.flatMap_nil, List.append_nil, List.foldl_nil]
  | cons name names ih =>
    have hmeet : s.seen.contains name = false →
        s.meet config.table name = ⟨s.text ++ ruleText config name, name :: s.seen⟩ := by
      intro hnew
      rw [Sheet.meet, hnew, get?_table, ruleText]
      cases config.rule? (String.ofList name) <;> simp
    rw [List.foldl_cons, ih, firstOccurrences]
    cases hseen : s.seen.contains name with
    | true => simp only [Sheet.meet, hseen, if_true]
    | false => simp [hmeet hseen]

/-- The classes of an element, as they stand in its first attribute of the name. -/
def classesOf (c : Markup.Content) : List (List Char) :=
  match c.element?.bind (·.attr? "class") with
  | some classes => Text.words classes.toList
  | none => []

/-- The used classes are those of the nodes in document order. -/
theorem usedClasses_eq (f : Markup.Forest) :
    usedClasses f = ((Markup.Forest.preorder f).map Markup.Tree.content).flatMap classesOf := by
  rw [List.flatMap_map]
  rfl

/-- Visiting a node meets its classes one after another. -/
theorem visit_eq (table : Record String) (d : Markup.Document) (s : Sheet) (h : Markup.Handle) :
    s.visit table d h = (classesOf (d.content h)).foldl (Sheet.meet table) s := by
  unfold Sheet.visit classesOf
  rw [Markup.Document.element?]
  cases (d.content h).element?.bind fun e => e.attr? "class" <;> rfl

/-- **A walk writes the stylesheet of the trees.** -/
theorem emit_eq_write (config : Config) (f : Markup.Forest) :
    emit config (.ofForest f) = write config f := by
  have hvisit : Sheet.visit config.table (.ofForest f) = fun s h =>
      (classesOf ((Markup.Document.ofForest f).content h)).foldl (Sheet.meet config.table) s :=
    funext fun s => funext fun h => visit_eq _ _ _ _
  rw [emit, hvisit, ← List.foldl_flatMap, text_foldl_meet, write_eq, usedClasses_eq,
    ← Markup.Document.map_content_descendants, List.flatMap_map]

/-! ### Places of classes -/

/-- A class stands at a place: the position of an element in document order, and its own position
in the first `class` attribute of the element. -/
def UsedAt (f : Markup.Forest) (name : List Char) (node word : Nat) : Prop :=
  ∃ t e classes, (Markup.Forest.preorder f)[node]? = some t ∧ t.content = .element e ∧
    e.attr? "class" = some classes ∧ (Text.words classes.toList)[word]? = some name

/-- A class is used at a place if it stands there among the classes of the node. -/
theorem usedAt_iff {f : Markup.Forest} {name : List Char} {node word : Nat} :
    UsedAt f name node word ↔ ∃ t, (Markup.Forest.preorder f)[node]? = some t ∧
      (classesOf t.content)[word]? = some name := by
  refine exists_congr fun t => ⟨?_, ?_⟩
  · rintro ⟨e, classes, ht, he, hclasses, hword⟩
    refine ⟨ht, ?_⟩
    rw [classesOf, he]
    simp only [Markup.Content.element?, Option.bind_some, hclasses, hword]
  · rintro ⟨ht, hword⟩
    unfold classesOf at hword
    split at hword
    · rename_i classes hattr
      obtain ⟨e, he, hclasses⟩ := Option.bind_eq_some_iff.1 hattr
      refine ⟨e, classes, ht, ?_, hclasses, hword⟩
      cases hc : t.content <;> rw [hc] at he <;> cases he
      rfl
    · cases hword

/-- The used classes are those that are used at some place. -/
theorem mem_usedClasses {f : Markup.Forest} {name : List Char} :
    name ∈ usedClasses f ↔ ∃ node word, UsedAt f name node word := by
  rw [usedClasses_eq, List.mem_flatMap]
  simp only [usedAt_iff]
  constructor
  · rintro ⟨c, hc, hname⟩
    obtain ⟨t, ht, rfl⟩ := List.mem_map.1 hc
    obtain ⟨node, hnode⟩ := List.getElem?_of_mem ht
    obtain ⟨word, hword⟩ := List.getElem?_of_mem hname
    exact ⟨node, word, t, hnode, hword⟩
  · rintro ⟨node, word, t, ht, hword⟩
    exact ⟨t.content, List.mem_map_of_mem (List.mem_of_getElem? ht), List.mem_of_getElem? hword⟩

/-- What precedes in lists put together stands at an earlier place: in an earlier list, or earlier
in the same one. -/
theorem Precedes.exists_place {α : Type} {xs : List α} {g : α → List (List Char)}
    {a b : List Char} (h : Precedes (xs.flatMap g) a b) :
    ∃ i j : Nat, (∃ x, xs[i]? = some x ∧ (g x)[j]? = some a) ∧
      ∀ i' j' : Nat, (∃ x, xs[i']? = some x ∧ (g x)[j']? = some b) →
        i < i' ∨ i = i' ∧ j < j' := by
  induction xs with
  | nil =>
    obtain ⟨before, behind, heq, -⟩ := h
    exact absurd heq (by simp)
  | cons x xs ih =>
    obtain ⟨before, behind, heq, hbefore, hne⟩ := h
    rw [List.flatMap_cons] at heq
    -- Either `a` is met in the first list, or all of that list stands before it.
    by_cases hlength : before.length < (g x).length
    · have hfirst : (g x).take before.length = before := by
        have := congrArg (List.take before.length) heq
        rwa [List.take_append_of_le_length hlength.le, List.take_left] at this
      have hat : (g x)[before.length]? = some a := by
        rw [← List.getElem?_append_left hlength, heq, List.getElem?_append_right le_rfl,
          Nat.sub_self, List.getElem?_cons_zero]
      refine ⟨0, before.length, ⟨x, rfl, hat⟩, ?_⟩
      rintro (_ | i') j' ⟨y, hy, hb⟩
      · obtain rfl := Option.some.inj hy
        refine .inr ⟨rfl, Nat.lt_of_not_le fun hle => ?_⟩
        rcases Nat.lt_or_eq_of_le hle with hlt | rfl
        · refine hbefore (List.mem_iff_getElem?.2 ⟨j', ?_⟩)
          rw [← hfirst, List.getElem?_take_of_lt hlt, hb]
        · exact hne (Option.some.inj (hb.symm.trans hat))
      · exact .inl i'.succ_pos
    · rw [Nat.not_lt] at hlength
      obtain ⟨middle, rfl⟩ : g x <+: before :=
        List.prefix_of_prefix_length_le ⟨_, rfl⟩ ⟨_, heq.symm⟩ hlength
      rw [List.append_assoc] at heq
      rw [List.mem_append, not_or] at hbefore
      have hrest : Precedes (xs.flatMap g) a b :=
        ⟨middle, behind, List.append_cancel_left heq, hbefore.2, hne⟩
      obtain ⟨i, j, ha, hb⟩ := ih hrest
      refine ⟨i + 1, j, ha, ?_⟩
      rintro (_ | i') j' ⟨y, hy, hyb⟩
      · obtain rfl := Option.some.inj hy
        exact absurd (List.mem_of_getElem? hyb) hbefore.1
      · refine (hb i' j' ⟨y, hy, hyb⟩).imp Nat.succ_lt_succ ?_
        rintro ⟨rfl, hlt⟩
        exact ⟨rfl, hlt⟩

/-! ### Rules -/

/-- Different classes have different selectors. -/
theorem escapeClass_injective : Function.Injective escapeClass := by
  intro a b h
  induction a generalizing b with
  | nil =>
    rcases b with _ | ⟨d, b⟩
    · rfl
    · rw [escapeClass, escapeClass, List.flatMap_cons] at h
      split at h <;> cases h
  | cons c a ih =>
    rcases b with _ | ⟨d, b⟩
    · rw [escapeClass, escapeClass, List.flatMap_cons] at h
      split at h <;> cases h
    · rw [escapeClass, escapeClass, List.flatMap_cons, List.flatMap_cons, ← escapeClass,
        ← escapeClass] at h
      have hslash : ∀ {x : Char}, (x.isAlphanum || x == '-' || x == '_') = true → x ≠ '\\' := by
        rintro _ hx rfl
        cases hx
      split at h <;> split at h <;> rename_i hc hd
      · obtain ⟨rfl, hrest⟩ := List.cons.inj h
        rw [ih hrest]
      · exact absurd (List.cons.inj h).1 (hslash hc)
      · exact absurd (List.cons.inj h).1.symm (hslash hd)
      · obtain ⟨rfl, hrest⟩ := List.cons.inj (List.cons.inj h).2
        rw [ih hrest]

/-- The classes of a list that have declarations, with them. -/
def rulesOf (config : Config) (names : List (List Char)) : List (List Char × String) :=
  names.filterMap fun name => (config.rule? (String.ofList name)).map (name, ·)

/-- What is written for classes are the rules of those that have declarations. -/
theorem flatMap_ruleText (config : Config) (names : List (List Char)) :
    names.flatMap (ruleText config) =
      (rulesOf config names).flatMap fun rule => writeRule rule.1 rule.2 := by
  induction names with
  | nil => rfl
  | cons name names ih =>
    simp only [List.flatMap_cons, ih, rulesOf, List.filterMap_cons, ruleText]
    cases config.rule? (String.ofList name) <;> rfl

/-- The rules are those of the listed classes that have declarations. -/
theorem mem_rulesOf {config : Config} {names : List (List Char)} {name : List Char}
    {declarations : String} : (name, declarations) ∈ rulesOf config names ↔
      name ∈ names ∧ config.rule? (String.ofList name) = some declarations := by
  simp [rulesOf, List.mem_filterMap]

/-- The rules stand in the order of their classes. -/
theorem pairwise_rulesOf (config : Config) {names : List (List Char)}
    {R : List Char → List Char → Prop} (h : names.Pairwise R) :
    (rulesOf config names).Pairwise fun r s => R r.1 s.1 := by
  refine List.pairwise_filterMap.2 (h.imp fun hR => ?_)
  intro r hr s hs
  obtain ⟨_, -, rfl⟩ := Option.map_eq_some_iff.1 hr
  obtain ⟨_, -, rfl⟩ := Option.map_eq_some_iff.1 hs
  exact hR

/-- Rules are those of the used classes: no two for one selector, one for each class that is used
and has declarations, configured ones before built-in ones, and none else.  A class with an earlier
rule is used before the class of a later rule is used at all. -/
structure UsedRules (config : Config) (f : Markup.Forest)
    (rules : List (List Char × String)) : Prop where
  selectors : (rules.map fun rule => escapeClass rule.1).Nodup
  mem_iff : ∀ name declarations, (name, declarations) ∈ rules ↔
    (∃ node word, UsedAt f name node word) ∧
      (Record.get? config.rules (String.ofList name) = some declarations ∨
        Record.get? config.rules (String.ofList name) = none ∧ config.defaults = true ∧
          Record.get? builtin (String.ofList name) = some declarations)
  ordered : rules.Pairwise fun r s => ∃ node word, UsedAt f r.1 node word ∧
    ∀ node' word', UsedAt f s.1 node' word' → node < node' ∨ node = node' ∧ word < word'

/-- **The rules of the first uses are those of the used classes**, in their order. -/
theorem usedRules (config : Config) (f : Markup.Forest) :
    UsedRules config f (rulesOf config (firstOccurrences [] (usedClasses f))) := by
  have hfirst : (firstOccurrences [] (usedClasses f)).Pairwise (Precedes (usedClasses f)) :=
    pairwise_firstOccurrences
  have hordered := pairwise_rulesOf config hfirst
  constructor
  case selectors =>
    refine List.pairwise_map.2 (hordered.imp fun h heq => ?_)
    obtain ⟨-, -, -, -, hne⟩ := h
    exact hne (escapeClass_injective heq).symm
  case mem_iff =>
    intro name declarations
    rw [mem_rulesOf, mem_firstOccurrences, mem_usedClasses, rule?_eq_some_iff]
    simp only [List.not_mem_nil, not_false_eq_true, and_true]
  case ordered =>
    refine hordered.imp fun h => ?_
    rw [usedClasses_eq, List.flatMap_map] at h
    simp only [usedAt_iff]
    exact h.exists_place

/-- **Each used class has its rule once.**  The stylesheet of a document, written along a walk, is
the trimmed preflight and a line end, or nothing if the preflight is blank, and then the rules of
the used classes. -/
theorem generate_rules {markup : String} {json : Json} {f : Markup.Forest} {config : Config}
    (hf : Markup.parse markup = .ok f) (hconfig : Config.ofJson? json = some config) :
    ∃ rules, UsedRules config f rules ∧
      generate markup json = .ok (String.ofList (emit config (.ofForest f))) ∧
      let preflight := Text.trim (config.preflight.getD "").toList
      emit config (.ofForest f) = (if preflight = [] then [] else preflight ++ ['\n']) ++
        rules.flatMap fun rule => writeRule rule.1 rule.2 := by
  refine ⟨rulesOf config (firstOccurrences [] (usedClasses f)), usedRules config f, ?_, ?_⟩
  · rw [emit_eq_write, generate, hconfig, hf]
  · rw [emit_eq_write, write_eq, flatMap_ruleText, writePreflight_eq]

/-- The hypotheses are satisfiable with a class used twice, one that has no rule, one that has a
configured rule in place of a built-in one, and a second `class` attribute of an element. -/
theorem generate_rules_flex : ∃ f config rules,
    Markup.parse "<p class='flex a:b'><b CLASS=' x flex' class=grid>flex</b></p><i class=block>" =
      .ok f ∧
    Config.ofJson? (.object [("preflight", .string " * \x7b\x7d\n"),
      ("rules", .object [("a:b", .string "x: y "), ("flex", .string "z: 0")])]) = some config ∧
    UsedRules config f rules ∧
    ("* \x7b\x7d\n.flex \x7b z: 0 \x7d\n.a\\:b \x7b x: y \x7d\n" ++
      ".block \x7b display: block \x7d\n").toList =
      "* \x7b\x7d\n".toList ++ rules.flatMap fun rule => writeRule rule.1 rule.2 := by
  have hwrite : (Markup.parse
      "<p class='flex a:b'><b CLASS=' x flex' class=grid>flex</b></p><i class=block>"
      ).toOption.any (fun f => decide (write
        ⟨some " * \x7b\x7d\n", true, [("a:b", "x: y "), ("flex", "z: 0")]⟩ f =
          ("* \x7b\x7d\n.flex \x7b z: 0 \x7d\n.a\\:b \x7b x: y \x7d\n" ++
            ".block \x7b display: block \x7d\n").toList)) = true := by
    decide +kernel
  have hconfig : Config.ofJson? (.object [("preflight", .string " * \x7b\x7d\n"),
      ("rules", .object [("a:b", .string "x: y "), ("flex", .string "z: 0")])]) =
      some ⟨some " * \x7b\x7d\n", true, [("a:b", "x: y "), ("flex", "z: 0")]⟩ := rfl
  obtain ⟨f, hf, hwrite⟩ := Markup.exists_ok_of_any hwrite
  obtain ⟨rules, hrules, -, htext⟩ := generate_rules hf hconfig
  rw [emit_eq_write, hwrite] at htext
  exact ⟨f, _, rules, hf, hconfig, hrules, htext⟩

end Stylesheet
end HtmlCompose
