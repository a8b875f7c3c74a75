/-
# Overriding single properties of a style

A style and the active overrides of it are records of properties, be they given as text or as
objects (`Styled`).  The overrides are put into the style one after another, under their keys as
they are spelled, and what comes of it is written as text (`get?_merge_style`).

A property may be spelled in camel case and in kebab case, and the spellings are told apart until
the text is written.  So a property that is overridden is declared once, with the value of the last
override, if and only if no other spelling of it has a value; otherwise all its spellings are
declared, in key order.  A property that no override has is declared as before (`merge_style`).
What the text declares can be read back from it, unless names or values of an object hold separators
or outer blanks.
-/
import HtmlCompose.Proofs.Component.Precedence
import HtmlCompose.Proofs.Data.Style

namespace HtmlCompose

namespace Style

variable {style own : Data} {styles : List Data} {k p : String} {v : Json}

/-- A style with overrides put into it, one after another. -/
def overlaid (own : Data) (styles : List Data) : Data :=
  styles.foldl (fun style properties => Record.insertAll properties style) own

/-- A style with overrides put into it is in order. -/
theorem ordered_overlaid (hown : own.Ordered) (styles : List Data) :
    (overlaid own styles).Ordered := by
  induction styles generalizing own with
  | nil => exact hown
  | cons properties styles ih => exact ih (hown.insertAll properties)

/-- Overrides add nothing but their own entries. -/
theorem mem_overlaid {entry : String × Json} (h : entry ∈ overlaid own styles) :
    ∃ properties ∈ own :: styles, entry ∈ properties := by
  induction styles generalizing own with
  | nil => exact ⟨own, List.mem_cons_self, h⟩
  | cons properties styles ih =>
    obtain ⟨found, hfound, hentry⟩ := ih h
    rcases List.mem_cons.1 hfound with rfl | hfound
    · rcases Record.mem_insertAll hentry with hentry | hentry
      · exact ⟨properties, by simp, hentry⟩
      · exact ⟨own, by simp, hentry⟩
    · exact ⟨found, by simp [hfound], hentry⟩

/-- Styles that are given as text declare nothing but what can be read back. -/
theorem plain_overlaid (h : ∀ properties ∈ own :: styles, ∃ text, properties = expand text) :
    ∀ declaration ∈ declared (overlaid own styles), Plain declaration := by
  intro declaration hdeclaration
  obtain ⟨entry, hentry, rfl⟩ := List.mem_map.1 hdeclaration
  obtain ⟨properties, hproperties, hmem⟩ := mem_overlaid (List.mem_of_mem_filter hentry)
  obtain ⟨text, rfl⟩ := h properties hproperties
  exact plain_of_mem_expand hmem

/-- What is declared of a property comes from the entries whose keys spell it. -/
theorem filter_declared (style : Data) (p : String) :
    (declared style).filter (fun declaration => declaration.1 = p) =
      ((style.filter fun entry => kebab entry.1 == p).filter fun entry => !entry.2.isNull).map
        fun entry => (kebab entry.1, entry.2.toText) := by
  rw [declared, List.filter_map, List.filter_filter, List.filter_filter]
  refine congrArg _ (List.filter_congr fun entry _ => ?_)
  rw [Bool.and_comm]
  rfl

/-- **A property is declared once, as one of its spellings has it, if and only if no other spelling
has a value.** -/
theorem declared_once_iff (h : style.Ordered) (hv : Record.get? style k = some v) :
    (declared style).filter (fun declaration => declaration.1 = kebab k) =
        (if v.isNull then [] else [(kebab k, v.toText)]) ↔
      ∀ q w, q ≠ k → kebab q = kebab k → Record.get? style q = some w → w.isNull = true := by
  rw [filter_declared]
  constructor
  · intro hdeclared q w hqk hq hw
    by_contra hnull
    have hmem : ∀ {q w}, kebab q = kebab k → Record.get? style q = some w → ¬w.isNull = true →
        (q, w) ∈ (style.filter fun entry => kebab entry.1 == kebab k).filter
          fun entry => !entry.2.isNull := fun hq hw hnull =>
      List.mem_filter.2 ⟨List.mem_filter.2 ⟨Record.mem_of_get? hw, beq_iff_eq.2 hq⟩, by
        simpa using hnull⟩
    split_ifs at hdeclared with hvnull
    · rw [List.map_eq_nil_iff.1 hdeclared] at hmem
      cases hmem hq hw hnull
    · -- both spellings would be the only entry
      obtain ⟨entry, hentry, -⟩ := List.map_eq_singleton_iff.1 hdeclared
      rw [hentry] at hmem
      have hqentry := List.mem_singleton.1 (hmem hq hw hnull)
      have hkentry := List.mem_singleton.1 (hmem rfl hv hvnull)
      exact hqk (Prod.mk.inj (hqentry.trans hkentry.symm)).1
  · intro hothers
    have hone : (style.filter fun entry => kebab entry.1 == kebab k).filter
        (fun entry => !entry.2.isNull) = [(k, v)].filter fun entry => !entry.2.isNull := by
      have hkey := h.filter_key k
      rw [hv] at hkey
      rw [← show List.filter (·.1 == k) style = [(k, v)] from hkey, List.filter_filter,
        List.filter_filter]
      refine List.filter_congr fun entry hentry => ?_
      rw [Bool.eq_iff_iff, Bool.and_eq_true, Bool.and_eq_true, beq_iff_eq, beq_iff_eq]
      refine and_congr_right fun hnull => ⟨fun hq => ?_, fun hq => by rw [hq]⟩
      by_contra hne
      rw [hothers entry.1 entry.2 hne hq (h.get?_eq_some_iff.2 hentry)] at hnull
      cases hnull
    rw [hone]
    rcases hnull : v.isNull <;> simp [hnull]

/-- A property that no override spells is declared as before. -/
theorem declared_overlaid (h : ∀ properties ∈ styles, ∀ entry ∈ properties, kebab entry.1 ≠ p) :
    (declared (overlaid own styles)).filter (fun declaration => declaration.1 = p) =
      (declared own).filter (fun declaration => declaration.1 = p) := by
  rw [filter_declared, filter_declared]
  refine congrArg _ (congrArg _ ?_)
  induction styles generalizing own with
  | nil => rfl
  | cons properties styles ih =>
    obtain ⟨hproperties, h⟩ := List.forall_mem_cons.1 h
    refine (ih h).trans (Record.filter_insertAll (p := fun q => kebab q == p) ?_ own)
    exact fun entry hentry => beq_eq_false_iff_ne.2 (hproperties entry hentry)

end Style

namespace Context

open Style (kebab declared overlaid)

variable {s : Settings} {custom : Option Data} {own : Data} {styles : List Data}

/-- The base has a style, and its active overrides are texts or objects too: these are the
properties of all of them. -/
structure Styled (s : Settings) (custom : Option Data) (own : Data) (styles : List Data) : Prop where
  own : (given s custom styleKey).bind properties? = some own
  overrides : ((active s (base s custom)).filterMap (Record.get? · styleKey)).map properties? =
    styles.map some

/-! ### The merged style -/

/-- The properties of a value in order are in order. -/
theorem ordered_properties {value : Json} (hvalue : value.Ordered) {properties : Data}
    (h : properties? value = some properties) : properties.Ordered := by
  cases value
  case string style => exact Option.some.inj h ▸ Record.ordered_ofList _
  case object style => exact Option.some.inj h ▸ hvalue.1
  all_goals cases h

/-- What an object in order has at a key is in order. -/
theorem ordered_of_get? {data : Data} (hdata : (Json.object data).Ordered) {key : String}
    {value : Json} (h : Record.get? data key = some value) : value.Ordered :=
  (Json.ordered_object_iff.1 hdata).2 _ (Record.mem_of_get? h)

/-- What a key is given is in order, if the settings and the caller's data are. -/
theorem ordered_given (hs : s.Ordered) (hcustom : ∀ data ∈ custom, (Json.object data).Ordered)
    {key : String} {value : Json} (h : given s custom key = some value) : value.Ordered := by
  rcases Option.or_eq_some_iff.1 h with h | ⟨-, h⟩
  · obtain ⟨data, hdata, hvalue⟩ := Option.bind_eq_some_iff.1 h
    exact ordered_of_get? (hcustom data hdata) hvalue
  · exact ordered_of_get? hs.data h

/-- The properties of the style and of its overrides are in order. -/
theorem Styled.ordered (h : Styled s custom own styles) (hs : s.Ordered)
    (hcustom : ∀ data ∈ custom, (Json.object data).Ordered) :
    own.Ordered ∧ ∀ properties ∈ styles, properties.Ordered := by
  constructor
  · obtain ⟨value, hvalue, hown⟩ := Option.bind_eq_some_iff.1 h.own
    exact ordered_properties (ordered_given hs hcustom hvalue) hown
  · intro properties hmem
    have hsome := List.mem_map_of_mem (f := some) hmem
    rw [← h.overrides] at hsome
    obtain ⟨value, hvalue, hproperties⟩ := List.mem_map.1 hsome
    obtain ⟨overrides, hoverrides, hvalue⟩ := List.mem_filterMap.1 hvalue
    obtain ⟨entry, hentry, rfl⟩ := List.mem_map.1 hoverrides
    exact ordered_properties
      (ordered_of_get? (hs.overrides entry (List.mem_of_mem_filter hentry)) hvalue) hproperties

/-- A value with properties is taken apart into them. -/
theorem takenApart_eq {value : Json} {properties : Data} (h : properties? value = some properties) :
    takenApart value = .object properties := by
  cases value
  case string style => exact congrArg Json.object (Option.some.inj h)
  case object style => exact congrArg Json.object (Option.some.inj h)
  all_goals cases h

/-- Overrides with properties are put into a style of properties. -/
theorem foldl_overridden {values : List Json} (h : values.map properties? = styles.map some) :
    values.foldl (overridden styleKey) (some (.object own)) =
      some (.object (overlaid own styles)) := by
  induction values generalizing own styles with
  | nil => rw [List.map_eq_nil_iff.1 h.symm]; rfl
  | cons value values ih =>
    obtain ⟨properties, styles, rfl⟩ : ∃ properties rest, styles = properties :: rest := by
      rcases styles with _ | ⟨properties, rest⟩
      · cases h
      · exact ⟨properties, rest, rfl⟩
    obtain ⟨hvalue, hvalues⟩ := List.cons.inj h
    have hone : overridden styleKey (some (.object own)) value =
        some (.object (Record.insertAll properties own)) := by
      rw [overridden, if_pos rfl, restyled, hvalue]
    rw [List.foldl_cons, hone, ih hvalues]
    rfl

/-- **The style of a render** is the text of the base's style with all active overrides put into
it. -/
theorem get?_merge_style (hs : s.Ordered) (hcustom : ∀ data ∈ custom, (Json.object data).Ordered)
    (h : Styled s custom own styles) :
    Record.get? (merge s custom) styleKey =
      some (.string (Style.write (declared (overlaid own styles)))) := by
  obtain ⟨value, hvalue, hown⟩ := Option.bind_eq_some_iff.1 h.own
  have hvalues := h.overrides
  rw [filterMap_active] at hvalues
  rw [get?_merge hs, get?_base hcustom, hvalue, Option.map_some, if_pos rfl, takenApart_eq hown,
    foldl_overridden hvalues, Option.map_some, if_pos rfl, ← Style.collapse_eq_write]
  rfl

/-- **A style is overridden property by property, spelling by spelling.**  Under each spelling, the
merged style has what the last active override with that spelling has, or else what the base has.
So a property that an active override has is declared once, as the last such override has it, or not
at all if its value is null, if and only if every other spelling of it has been left with a null
value or none.  Any other property is declared as the base declares it.  The declarations are read
back from the text if they are plain, and they are if all styles are given as text. -/
theorem merge_style (hs : s.Ordered) (hcustom : ∀ data ∈ custom, (Json.object data).Ordered)
    (h : Styled s custom own styles) : ∃ style : Data,
    (style.Ordered ∧ ∀ q, Record.get? style q = Record.last? (own :: styles) q) ∧
    Record.get? (merge s custom) styleKey = some (.string (Style.write (declared style))) ∧
    (∀ before last after k v, styles = before ++ last :: after → Record.get? last k = some v →
      (∀ properties ∈ after, ∀ entry ∈ properties, kebab entry.1 ≠ kebab k) →
      ((declared style).filter (fun declaration => declaration.1 = kebab k) =
          (if v.isNull then [] else [(kebab k, v.toText)]) ↔
        ∀ properties ∈ own :: styles, ∀ entry ∈ properties, entry.1 ≠ k →
          kebab entry.1 = kebab k → ∀ w ∈ Record.last? (own :: styles) entry.1,
            w.isNull = true)) ∧
    (∀ p, (∀ properties ∈ styles, ∀ entry ∈ properties, kebab entry.1 ≠ p) →
      (declared style).filter (fun declaration => declaration.1 = p) =
        (declared own).filter fun declaration => declaration.1 = p) ∧
    ((∀ declaration ∈ declared style, Style.Plain declaration) ∨
        (∀ properties ∈ own :: styles, ∃ text, properties = Style.expand text) →
      Style.read (Style.write (declared style)) =
        (declared style).map fun declaration => (declaration.1, .string declaration.2)) := by
  obtain ⟨hown, hstyles⟩ := h.ordered hs hcustom
  have hordered := Style.ordered_overlaid hown styles
  have hget : ∀ q, Record.get? (overlaid own styles) q = Record.last? (own :: styles) q :=
    Record.get?_foldl_insertAll hstyles own
  refine ⟨overlaid own styles, ⟨hordered, hget⟩, get?_merge_style hs hcustom h, ?_,
    fun p => Style.declared_overlaid, fun hplain =>
      Style.read_write (hplain.elim id Style.plain_overlaid)⟩
  intro before last after k v hsplit hv hafter
  have hlast : Record.last? (own :: styles) k = some v := by
    have hnone : after.filterMap (Record.get? · k) = [] :=
      List.filterMap_eq_nil_iff.2 fun properties hmem =>
        Record.get?_eq_none fun entry hentry heq => hafter properties hmem entry hentry (by rw [heq])
    rw [Record.last?, hsplit, ← List.cons_append, List.filterMap_append,
      List.filterMap_cons_some (f := (Record.get? · k)) hv, hnone, List.getLast?_append]
    rfl
  rw [Style.declared_once_iff hordered ((hget k).trans hlast)]
  constructor
  · intro hothers properties _ entry _ hne hspelled w hw
    exact hothers entry.1 w hne hspelled ((hget entry.1).trans hw)
  · intro hothers q w hne hspelled hw
    rw [hget] at hw
    obtain ⟨properties, hmem, hq⟩ := Record.exists_of_last? hw
    exact hothers properties hmem (q, w) (Record.mem_of_get? hq) hne hspelled w hw

/-- A style in text form, with an override as an object, which takes one property away, and another
one as text. -/
def cardSettings : Settings where
  data := [("style", .string "padding: 4px; margin: 0; color: black")]
  when_ := [
    ("primary", [("style", .object [("color", .string "red"), ("margin", .null)])]),
    ("wide", [("style", .string "padding: 8px")])]

/-- Both conditions of the card hold. -/
def cardData : Data := [("primary", .bool true), ("wide", .bool true)]

/-- The hypotheses are satisfiable, and no property has a second spelling. -/
theorem merge_style_card : cardSettings.Ordered ∧ (Json.object cardData).Ordered ∧
    Styled cardSettings (some cardData)
      [("color", .string "black"), ("margin", .string "0"), ("padding", .string "4px")]
      [[("color", .string "red"), ("margin", .null)], [("padding", .string "8px")]] ∧
    ∃ style : Data,
      Record.get? (merge cardSettings (some cardData)) styleKey =
        some (.string (Style.write (declared style))) ∧
      ((declared style).filter fun declaration => declaration.1 = "color") = [("color", "red")] ∧
      ((declared style).filter fun declaration => declaration.1 = "margin") = [] ∧
      ((declared style).filter fun declaration => declaration.1 = "padding") =
        [("padding", "8px")] := by
  have hs : cardSettings.Ordered := ⟨by decide +kernel, by decide +kernel, by decide +kernel⟩
  have hdata : (Json.object cardData).Ordered := by decide +kernel
  have hstyled : Styled cardSettings (some cardData)
      [("color", .string "black"), ("margin", .string "0"), ("padding", .string "4px")]
      [[("color", .string "red"), ("margin", .null)], [("padding", .string "8px")]] := ⟨rfl, rfl⟩
  obtain ⟨style, -, htext, hset, -, -⟩ := merge_style hs
    (fun data hmem => Option.some.inj hmem ▸ hdata) hstyled
  have hcolor := (hset [] _ _ "color" _ rfl rfl (by decide +kernel)).2 (by decide +kernel)
  have hmargin := (hset [] _ _ "margin" _ rfl rfl (by decide +kernel)).2 (by decide +kernel)
  have hpadding := (hset [_] _ [] "padding" _ rfl rfl (by decide +kernel)).2 (by decide +kernel)
  have hkebab : kebab "color" = "color" ∧ kebab "margin" = "margin" ∧
      kebab "padding" = "padding" := by decide +kernel
  rw [hkebab.1] at hcolor
  rw [hkebab.2.1] at hmargin
  rw [hkebab.2.2] at hpadding
  exact ⟨hs, hdata, hstyled, style, htext, hcolor, hmargin, hpadding⟩

/-- A style with a property in camel case, which an override spells in kebab case. -/
def shadowedSettings : Settings where
  data := [("style", .object [("paddingLeft", .string "1px")])]
  when_ := [("wide", [("style", .string "padding-left: 2px")])]

/-- An override and what it should replace are both declared, the latter behind. -/
theorem override_shadowed :
    Styled shadowedSettings (some [("wide", .bool true)]) [("paddingLeft", .string "1px")]
      [[("padding-left", .string "2px")]] ∧
    kebab "paddingLeft" = kebab "padding-left" ∧
    Record.get? (merge shadowedSettings (some [("wide", .bool true)])) styleKey =
      some (.string "padding-left: 2px; padding-left: 1px") ∧
    Style.read "padding-left: 2px; padding-left: 1px" =
      [("padding-left", .string "2px"), ("padding-left", .string "1px")] := by
  refine ⟨⟨rfl, rfl⟩, ?_, ?_, ?_⟩
  · decide +kernel
  · rfl
  · rfl

end Context
end HtmlCompose
