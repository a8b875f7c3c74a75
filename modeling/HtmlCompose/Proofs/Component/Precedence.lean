/-
# Which value the data of a render has at a key

A condition is active if it holds in the base: the caller's value of a key, or else the component's
own, with a style in text form taken apart (`get?_base`).  Overrides are put in place afterwards, so
that none of them is asked about.

| the data of a render has at a key | if |
| --- | --- |
| the value of the last active condition that overrides it, in key order | one does |
| the caller's value | no active condition overrides it and the caller gives one |
| the own value | there is neither |

That is so for every key but the style (`merge_precedence`).  The style is overridden property by
property, again by the active conditions in key order: what the data has at any key depends on what
the conditions override that key with and on nothing else that they override (`get?_merge_congr`).

Records are in key order throughout, as they are in settings that have been read
(`Settings.ordered_of_ofJson`, `Settings.ordered_of_ofToml`).
-/
import HtmlCompose.Component.Context
import HtmlCompose.Proofs.Component.Settings

namespace HtmlCompose

/-- What the conditions override a key with. -/
def Settings.overridesOf (s : Settings) (key : String) : Record Json :=
  s.when_.filterMap fun entry => (Record.get? entry.2 key).map (entry.1, ·)

/-- What conditions override a key with is in the order of the conditions. -/
theorem Settings.Ordered.overridesOf {s : Settings} (hs : s.Ordered) (key : String) :
    (s.overridesOf key).Ordered :=
  hs.when_.filterMap fun overrides => Record.get? overrides key

/-- A condition overrides a key with what its overrides have there. -/
theorem Settings.Ordered.get?_overridesOf {s : Settings} (hs : s.Ordered) (key condition : String) :
    Record.get? (s.overridesOf key) condition =
      (Record.get? s.when_ condition).bind fun overrides => Record.get? overrides key :=
  hs.when_.get?_filterMap (fun overrides => Record.get? overrides key) condition

namespace Context

variable {s : Settings} {custom : Option Data} {data : Data} {key : String}

/-- The caller's value of a key, or else the own one. -/
def given (s : Settings) (custom : Option Data) (key : String) : Option Json :=
  (custom.bind (Record.get? · key)).or (Record.get? s.data key)

/-- An active condition overrides a key with a value. -/
def Overrides (s : Settings) (custom : Option Data) (condition key : String) (value : Json) : Prop :=
  (base s custom).conditionHolds condition = true ∧
    ∃ overrides, Record.get? s.when_ condition = some overrides ∧
      Record.get? overrides key = some value

/-! ### Taking a style apart and writing it as text -/

/-- A style in text form as its properties; anything else stays. -/
def takenApart : Json → Json
  | .string style => .object (Style.expand style)
  | value => value

/-- The properties of a style as text; anything else stays. -/
def writtenOut : Json → Json
  | .object style => .string (Style.collapse style)
  | value => value

/-- Data whose style has been changed, if it had to be. -/
theorem get?_of_style {data' : Data} {f : Json → Json}
    (h : (∃ style, Record.get? data styleKey = some style ∧
        data' = Record.insert styleKey (f style) data) ∨
      (Record.get? data styleKey).map f = Record.get? data styleKey ∧ data' = data) (key : String) :
    Record.get? data' key =
      (Record.get? data key).map fun value => if key = styleKey then f value else value := by
  rcases h with ⟨style, hstyle, rfl⟩ | ⟨hsame, rfl⟩
  · rw [Record.get?_insert]
    by_cases hkey : key = styleKey
    · subst hkey
      rw [if_pos rfl, hstyle, Option.map_some, if_pos rfl]
    · simp [hkey, Ne.symm hkey]
  · by_cases hkey : key = styleKey
    · subst hkey
      simpa using hsame.symm
    · simp [hkey]

/-- Taking the style apart changes the value of its key only. -/
theorem get?_expandStyle (data : Data) (key : String) :
    Record.get? (expandStyle data) key = (Record.get? data key).map fun value =>
      if key = styleKey then takenApart value else value := by
  refine get?_of_style ?_ key
  unfold expandStyle
  rcases Record.get? data styleKey with _ | style
  · exact .inr ⟨rfl, rfl⟩
  · cases style
    case string style => exact .inl ⟨_, rfl, rfl⟩
    all_goals exact .inr ⟨rfl, rfl⟩

/-- Writing the style as text changes the value of its key only. -/
theorem get?_collapseStyle (data : Data) (key : String) :
    Record.get? (collapseStyle data) key = (Record.get? data key).map fun value =>
      if key = styleKey then writtenOut value else value := by
  refine get?_of_style ?_ key
  unfold collapseStyle
  rcases Record.get? data styleKey with _ | style
  · exact .inr ⟨rfl, rfl⟩
  · cases style
    case object style => exact .inl ⟨_, rfl, rfl⟩
    all_goals exact .inr ⟨rfl, rfl⟩

/-- **The base** is what the caller gives, or else the own data, with the style taken apart. -/
theorem get?_base (hcustom : ∀ data ∈ custom, (Json.object data).Ordered) (key : String) :
    Record.get? (base s custom) key =
      (given s custom key).map fun value => if key = styleKey then takenApart value else value := by
  have hlookup : Record.get? (Record.insertAll (custom.getD []) s.data) key = given s custom key := by
    rcases custom with _ | data
    · rfl
    · exact Record.get?_insertAll (hcustom data rfl).1 s.data key
  rw [base, get?_expandStyle, hlookup]

/-! ### Overriding -/

/-- The properties that a value gives a style: those of a text or of an object. -/
def properties? : Json → Option Data
  | .string style => some (Style.expand style)
  | .object style => some style
  | _ => none

/-- A style that is overridden: properties are put into properties, and anything else takes its
place. -/
def restyled (old : Option Json) (value : Json) : Json :=
  match properties? value with
  | some properties =>
    .object (match old with
      | some (.object style) => Record.insertAll properties style
      | _ => properties)
  | none => value

/-- What a key has after it has been overridden with a value. -/
def overridden (key : String) (old : Option Json) (value : Json) : Option Json :=
  some (if key = styleKey then restyled old value else value)

/-- A style that is overridden is put back restyled. -/
theorem overrideStyle_eq (value : Json) (data : Data) :
    overrideStyle value data =
      Record.insert styleKey (restyled (Record.get? data styleKey) value) data := by
  have hoverlay : ∀ {overrides : Data}, properties? value = some overrides →
      overlayStyle overrides data =
        Record.insert styleKey (restyled (Record.get? data styleKey) value) data := fun h => by
    simp only [overlayStyle, restyled, h]
    rcases Record.get? data styleKey with _ | style
    · rfl
    · cases style <;> rfl
  unfold overrideStyle
  cases value
  case string style => exact hoverlay rfl
  case object style => exact hoverlay rfl
  all_goals rfl

/-- One override changes one key. -/
theorem get?_override (data : Data) (entry : String × Json) (key : String) :
    Record.get? (override data entry) key =
      (if entry.1 = key then some entry.2 else none).elim (Record.get? data key)
        (overridden key (Record.get? data key)) := by
  rw [override]
  by_cases hkey : entry.1 = key
  · rw [if_pos hkey, hkey]
    by_cases hstyle : key = styleKey
    · subst hstyle
      rw [if_pos rfl, overrideStyle_eq, Record.get?_insert, if_pos rfl]
      rfl
    · rw [if_neg hstyle, Record.get?_insert, if_pos rfl, Option.elim_some, overridden,
        if_neg hstyle]
  · rw [if_neg hkey]
    split_ifs with hstyle
    · rw [overrideStyle_eq, Record.get?_insert, if_neg (hstyle ▸ hkey)]
      rfl
    · rw [Record.get?_insert, if_neg hkey]
      rfl

/-- The overrides of one condition change the keys that they have. -/
theorem get?_foldl_override {overrides : Data} (h : overrides.Ordered) (data : Data)
    (key : String) :
    Record.get? (overrides.foldl override data) key =
      (Record.get? overrides key).elim (Record.get? data key)
        (overridden key (Record.get? data key)) := by
  rw [Record.get?_foldl (fun data entry _ => get?_override data entry key), h.filterMap_key]
  rcases Record.get? overrides key with _ | value <;> rfl

/-- The active conditions that override a key, with the values that they override it with. -/
def activeOverrides (s : Settings) (custom : Option Data) (key : String) : Record Json :=
  (s.overridesOf key).filter fun entry => (base s custom).conditionHolds entry.1

/-- The active overrides of a key are those that the base's conditions make. -/
theorem mem_activeOverrides (hs : s.Ordered) {condition : String} {value : Json} :
    (condition, value) ∈ activeOverrides s custom key ↔ Overrides s custom condition key value := by
  rw [activeOverrides, List.mem_filter, ← (hs.overridesOf key).get?_eq_some_iff,
    hs.get?_overridesOf, Option.bind_eq_some_iff]
  exact and_comm

/-- What the active conditions have at a key, in order, are its active overrides. -/
theorem filterMap_active (s : Settings) (custom : Option Data) (key : String) :
    (active s (base s custom)).filterMap (Record.get? · key) =
      (activeOverrides s custom key).map (·.2) := by
  rw [active, activeOverrides, Settings.overridesOf, List.filterMap_map, List.filter_filterMap,
    List.map_filterMap, List.filterMap_filter]
  refine List.filterMap_congr fun entry _ => ?_
  rcases hvalue : Record.get? entry.2 key with _ | value <;>
    rcases hholds : (base s custom).conditionHolds entry.1 <;> simp [Option.filter, hvalue, hholds]

/-- **What the data of a render has at a key**: what the base has there, overridden by the active
conditions one after another. -/
theorem get?_merge (hs : s.Ordered) (custom : Option Data) (key : String) :
    Record.get? (merge s custom) key =
      (((activeOverrides s custom key).map (·.2)).foldl (overridden key)
        (Record.get? (base s custom) key)).map
          fun value => if key = styleKey then writtenOut value else value := by
  have hactive : ∀ data, ∀ overrides ∈ active s (base s custom),
      Record.get? (overrides.foldl override data) key =
        (Record.get? overrides key).elim (Record.get? data key)
          (overridden key (Record.get? data key)) := fun data overrides hmem => by
    obtain ⟨entry, hentry, rfl⟩ := List.mem_map.1 hmem
    exact get?_foldl_override (hs.overrides entry (List.mem_of_mem_filter hentry)).1 data key
  have hfold := Record.get?_foldl hactive (base s custom)
  rw [filterMap_active] at hfold
  rw [merge, get?_collapseStyle, hfold]

/-- A key other than the style has what the last active condition overrides it with. -/
theorem get?_merge_of_ne (hs : s.Ordered) (hcustom : ∀ data ∈ custom, (Json.object data).Ordered)
    (hkey : key ≠ styleKey) :
    Record.get? (merge s custom) key =
      ((activeOverrides s custom key).getLast?.map (·.2)).or (given s custom key) := by
  have hlast : overridden key = fun _ value => some value := funext fun old => funext fun value => by
    rw [overridden, if_neg hkey]
  have hid : (fun value => if key = styleKey then writtenOut value else value) = id :=
    funext fun value => if_neg hkey
  have hid' : (fun value => if key = styleKey then takenApart value else value) = id :=
    funext fun value => if_neg hkey
  rw [get?_merge hs, hlast, Record.foldl_last, get?_base hcustom, hid, hid', Option.map_id,
    id, id, List.getLast?_map]

/-- Settings that override a key alike, condition by condition, give it the same value, whatever
other keys they override. -/
theorem get?_merge_congr {s' : Settings} (hs : s.Ordered) (hs' : s'.Ordered)
    (hdata : s'.data = s.data)
    (h : ∀ condition, (Record.get? s'.when_ condition).bind (Record.get? · key) =
      (Record.get? s.when_ condition).bind (Record.get? · key)) :
    Record.get? (merge s' custom) key = Record.get? (merge s custom) key := by
  have hbase : base s' custom = base s custom := by rw [base, hdata, base]
  have hoverrides : s'.overridesOf key = s.overridesOf key := by
    refine (hs'.overridesOf key).ext (hs.overridesOf key) fun condition => ?_
    rw [hs'.get?_overridesOf, h, hs.get?_overridesOf]
  rw [get?_merge hs', get?_merge hs, activeOverrides, activeOverrides, hbase, hoverrides]

/-- **Overrides take precedence over the caller's data, and that over the own data.**  A key other
than the style has what the active condition that is last among those overriding it, in key order,
overrides it with; without one, it has what the caller gives, or else the own value.  Conditions are
asked of the base alone: what the data has at a key depends on what each condition overrides that
key with, and on no other override. -/
theorem merge_precedence (hs : s.Ordered)
    (hcustom : ∀ data ∈ custom, (Json.object data).Ordered) :
    (∀ key, Record.get? (base s custom) key =
      (given s custom key).map fun value => if key = styleKey then takenApart value else value) ∧
    (∀ key, key ≠ styleKey →
      (∃ condition value, Overrides s custom condition key value ∧
        (∀ other v, Overrides s custom other key v → other ≤ condition) ∧
        Record.get? (merge s custom) key = some value) ∨
      (∀ condition value, ¬Overrides s custom condition key value) ∧
        Record.get? (merge s custom) key = given s custom key) ∧
    ∀ s' : Settings, s'.Ordered → s'.data = s.data → ∀ key,
      (∀ condition, (Record.get? s'.when_ condition).bind (Record.get? · key) =
        (Record.get? s.when_ condition).bind (Record.get? · key)) →
      Record.get? (merge s' custom) key = Record.get? (merge s custom) key := by
  refine ⟨get?_base hcustom, fun key hkey => ?_, fun s' hs' hdata key =>
    get?_merge_congr hs hs' hdata⟩
  have hmerge := get?_merge_of_ne hs hcustom hkey
  rcases hlast : (activeOverrides s custom key).getLast? with _ | ⟨condition, value⟩
  · rw [hlast] at hmerge
    refine .inr ⟨fun condition value hoverrides => ?_, hmerge⟩
    have hmem := (mem_activeOverrides hs).2 hoverrides
    rw [List.getLast?_eq_none_iff.1 hlast] at hmem
    cases hmem
  · rw [hlast] at hmerge
    obtain ⟨before, hbefore⟩ := List.getLast?_eq_some_iff.1 hlast
    refine .inl ⟨condition, value, (mem_activeOverrides hs).1 ?_, fun other v hother => ?_, hmerge⟩
    · exact hbefore ▸ List.mem_append_right _ List.mem_cons_self
    · have hordered : (activeOverrides s custom key).Ordered := (hs.overridesOf key).filter _
      have hmem := (mem_activeOverrides hs).2 hother
      rw [hbefore] at hmem hordered
      rcases List.mem_append.1 hmem with hmem | hmem
      · exact (List.pairwise_append.1 hordered.pairwise).2.2 _ hmem _ List.mem_cons_self |>.le
      · obtain ⟨rfl, -⟩ := Prod.mk.inj (List.mem_singleton.1 hmem)
        exact le_refl _

/-- A label of several sizes: a wide one becomes extra large, but is not asked again whether it
is. -/
def labelSettings : Settings where
  data := [("label", .string "none"), ("size", .string "m"), ("style", .string "color: red")]
  when_ := [
    ("!plain", [("size", .string "s")]),
    ("style.color", [("label", .string "tinted")]),
    ("wide", [("size", .string "l"), ("xl", .bool true)]),
    ("xl", [("size", .string "xl")])]

/-- What the caller of a wide label gives. -/
def labelData : Data := [("label", .string "mine"), ("wide", .bool true)]

/-- The hypotheses are satisfiable. -/
theorem merge_precedence_label : labelSettings.Ordered ∧ (Json.object labelData).Ordered ∧
    Overrides labelSettings (some labelData) "wide" "size" (.string "l") ∧
    (∃ condition value, Overrides labelSettings (some labelData) condition "size" value ∧
      (∀ other v, Overrides labelSettings (some labelData) other "size" v → other ≤ condition) ∧
      Record.get? (merge labelSettings (some labelData)) "size" = some value) ∧
    (base labelSettings (some labelData)).conditionHolds "xl" = false ∧
    Record.get? (merge labelSettings (some labelData)) "xl" = some (.bool true) := by
  have hs : labelSettings.Ordered := ⟨by decide +kernel, by decide +kernel, by decide +kernel⟩
  have hdata : (Json.object labelData).Ordered := by decide +kernel
  have hwide : Overrides labelSettings (some labelData) "wide" "size" (.string "l") :=
    ⟨by decide +kernel, _, rfl, rfl⟩
  have hmerge := merge_precedence hs fun data hmem => Option.some.inj hmem ▸ hdata
  have hsize := (hmerge.2.1 "size" (by decide)).resolve_right fun hnone => hnone.1 "wide" _ hwide
  exact ⟨hs, hdata, hwide, hsize, by decide +kernel, rfl⟩

end Context
end HtmlCompose
