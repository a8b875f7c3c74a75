/-
# What bound attributes leave on an instance

The bound attributes of an element are carried out one after another.  Each takes itself away and
sets its target or takes that away, so attributes that none of them addresses stay as they are
(`filter_bindAttributes`), and a bound name that none of them sets is gone
(`filter_bindAttributes_own`).  An attribute that is alone in addressing its target and itself
decides what the target is afterwards, however many others are carried out before and after it
(`filter_bindAttributes_target`).

On an instance, `Marked` holds of the attributes before and after:

| attribute | what it holds |
| --- | --- |
| encoded | the text of a value that can be read back; it is the first one of its name |
| any other | its own text |

Data whose values can be read back has only such values at its paths, and so has the data of every
repetition (`Readable.lookup`, `readable_loopData`).
-/
import HtmlCompose.Directive.Attribute
import HtmlCompose.Proofs.Data.RoundTrip

namespace HtmlCompose

open Markup

/-! ### Values in data -/

namespace Json

/-- The items of a whole list are whole. -/
theorem WholeItems.of_mem {vs : List Json} (h : WholeItems vs) {v : Json} (hv : v ∈ vs) :
    v.Whole := by
  induction vs with
  | nil => cases hv
  | cons w vs ih =>
    rcases List.mem_cons.1 hv with rfl | hv
    · exact h.1
    · exact ih h.2 hv

/-- The values of whole fields are whole. -/
theorem WholeFields.of_mem {fields : List (String × Json)} (h : WholeFields fields)
    {entry : String × Json} (hentry : entry ∈ fields) : entry.2.Whole := by
  induction fields with
  | nil => cases hentry
  | cons other fields ih =>
    rcases List.mem_cons.1 hentry with rfl | hentry
    · exact h.1
    · exact ih h.2 hentry

/-- A list is nested no less than its items. -/
theorem nesting_le_items {vs : List Json} {v : Json} (hv : v ∈ vs) :
    v.nesting ≤ nestingItems vs := by
  induction vs with
  | nil => cases hv
  | cons w vs ih =>
    rw [nestingItems]
    rcases List.mem_cons.1 hv with rfl | hv
    · exact le_max_left _ _
    · exact (ih hv).trans (le_max_right _ _)

/-- An object is nested no less than its values. -/
theorem nesting_le_fields {fields : List (String × Json)} {entry : String × Json}
    (hentry : entry ∈ fields) : entry.2.nesting ≤ nestingFields fields := by
  induction fields with
  | nil => cases hentry
  | cons other fields ih =>
    rw [nestingFields]
    rcases List.mem_cons.1 hentry with rfl | hentry
    · exact le_max_left _ _
    · exact (ih hentry).trans (le_max_right _ _)

/-- The items of an array that can be read back can be read back. -/
theorem Readable.of_mem_items {vs : List Json} (h : (array vs).Readable) {v : Json}
    (hv : v ∈ vs) : v.Readable := by
  have hnesting := h.2
  rw [nesting] at hnesting
  exact ⟨WholeItems.of_mem h.1 hv, (nesting_le_items hv).trans (by omega)⟩

/-- The values of an object that can be read back can be read back. -/
theorem Readable.of_mem_fields {fields : List (String × Json)} (h : (object fields).Readable)
    {entry : String × Json} (hentry : entry ∈ fields) : entry.2.Readable := by
  have hnesting := h.2
  rw [nesting] at hnesting
  exact ⟨WholeFields.of_mem h.1.2 hentry, (nesting_le_fields hentry).trans (by omega)⟩

end Json

/-- What a segment leads to in a value that can be read back can be read back. -/
theorem Json.Readable.child? {v w : Json} (hv : v.Readable) {segment : String}
    (h : v.child? segment = some w) : w.Readable := by
  unfold Json.child? at h
  split at h
  · exact hv.of_mem_fields (Record.mem_of_get? h)
  · obtain ⟨n, -, hn⟩ := Option.bind_eq_some_iff.1 h
    exact hv.of_mem_items (List.mem_of_getElem? hn)
  · cases h

namespace Data

/-- Every value of the data can be read back. -/
def Readable (data : Data) : Prop := ∀ entry ∈ data, entry.2.Readable

/-- **What is found at a path can be read back.** -/
theorem Readable.lookup {data : Data} (hdata : data.Readable) {path : String} {v : Json}
    (h : data.lookup path = some v) : v.Readable := by
  unfold Data.lookup at h
  split at h
  · cases h
  · rename_i first rest hpath
    split at h
    · cases h
    · obtain ⟨start, hstart, hrest⟩ := Option.bind_eq_some_iff.1 h
      have hreadable : start.Readable := hdata _ (Record.mem_of_get? hstart)
      clear hpath h hstart
      induction rest generalizing start with
      | nil => exact Option.some.inj hrest ▸ hreadable
      | cons segment rest ih =>
        rw [List.foldlM_cons] at hrest
        obtain ⟨next, hnext, hrest⟩ := Option.bind_eq_some_iff.1 hrest
        exact ih next hrest (hreadable.child? hnext)

end Data

namespace Directive

/-- A repetition leaves in scope only values that can be read back. -/
theorem readable_loopData {data : Data} (hdata : data.Readable) {expr : String} {item : Data}
    (h : item ∈ loopData data expr) : item.Readable := by
  unfold loopData at h
  split at h
  · split at h
    · rename_i values hlookup
      obtain ⟨v, hv, rfl⟩ := List.mem_map.1 h
      intro entry hentry
      rcases Record.mem_insert hentry with rfl | hentry
      · exact (hdata.lookup hlookup).of_mem_items hv
      · exact hdata entry hentry
    · cases h
  · cases h

/-- What a bound attribute gets can be read back. -/
theorem readable_boundValue? {data : Data} (hdata : data.Readable) {expr : String} {v : Json}
    (h : boundValue? data expr = some v) : v.Readable := by
  unfold boundValue? at h
  split at h
  · split at h
    · cases h
    · obtain rfl := Option.some.inj h
      exact ⟨trivial, Nat.zero_le _⟩
  · exact hdata.lookup (Option.filter_eq_some_iff.1 h).1

/-! ### Names -/

/-- Names that are the same are the same as the same names. -/
theorem sameName_congr {a b : String} (h : sameName a b = true) (c : String) :
    sameName a c = sameName b c := by
  rw [sameName, sameName, eq_of_beq h]

theorem sameName_comm (a b : String) : sameName a b = sameName b a := BEq.comm

theorem sameName_self (a : String) : sameName a a = true := BEq.rfl

/-- An attribute has both of two names that are the same, or none. -/
theorem named_congr {name other : String} (h : sameName name other = true) (a : Attribute) :
    a.named name = a.named other := by
  rw [Attribute.named, Attribute.named, sameName_comm, sameName_congr h, sameName_comm]

/-- A bound attribute sets what stands behind its colon, and that is not empty. -/
theorem toList_of_boundName? {name target : String} (h : boundName? name = some target) :
    name.toList = ':' :: target.toList ∧ target.toList ≠ [] := by
  unfold boundName? at h
  split at h
  · rename_i c rest hname
    obtain rfl := Option.some.inj h
    rw [String.toList_ofList]
    exact ⟨hname, List.cons_ne_nil c rest⟩
  · cases h

/-- A bound attribute does not set itself. -/
theorem sameName_boundName? {name target : String} (h : boundName? name = some target) :
    sameName name target = false := by
  refine beq_eq_false_iff_ne.2 fun hsame => ?_
  have hlength := congrArg List.length hsame
  rw [Text.foldCase, Text.foldCase, List.length_map, List.length_map,
    (toList_of_boundName? h).1, List.length_cons] at hlength
  omega

/-- A bound attribute has no name that starts with a letter. -/
theorem sameName_of_boundName? {name target other : String} (h : boundName? name = some target)
    {c : Char} {s : List Char} (hother : other.toList = c :: s) (hc : c.toLower ≠ ':') :
    sameName name other = false := by
  refine beq_eq_false_iff_ne.2 fun hsame => ?_
  rw [(toList_of_boundName? h).1, hother, Text.foldCase, Text.foldCase, List.map_cons,
    List.map_cons] at hsame
  exact hc (List.cons.inj hsame).1.symm

/-- A name is bound if something stands behind a colon at its start. -/
theorem isSome_boundName?_iff {name : String} :
    (boundName? name).isSome = true ↔ ∃ c rest, name.toList = ':' :: c :: rest := by
  unfold boundName?
  split
  · next c rest hname => simp [hname]
  · next hname => simpa using hname

/-- Of two names that are the same, both are bound or none is. -/
theorem isSome_boundName?_congr {name other : String} (h : sameName name other = true) :
    (boundName? name).isSome = (boundName? other).isSome := by
  have key : ∀ {s t : List Char}, Text.foldCase s = Text.foldCase t →
      (∃ c rest, s = ':' :: c :: rest) → ∃ c rest, t = ':' :: c :: rest := by
    rintro _ t hfold ⟨c, rest, rfl⟩
    obtain ⟨colon, t, rfl, hcolon, ht⟩ := List.map_eq_cons_iff.1 hfold.symm
    obtain ⟨c', t, rfl, -⟩ := List.map_eq_cons_iff.1 ht
    exact ⟨c', t, by rw [Text.eq_of_toLower_eq (by decide) hcolon]; rfl⟩
  have hfold : Text.foldCase name.toList = Text.foldCase other.toList := eq_of_beq h
  rw [Bool.eq_iff_iff, isSome_boundName?_iff, isSome_boundName?_iff]
  exact ⟨key hfold, key hfold.symm⟩

/-- An attribute has a name, or is bound and sets an attribute of that name. -/
def addresses (name : String) (a : Attribute) : Bool :=
  a.named name || (boundName? a.name).any (sameName · name)

/-! ### Attributes that stay -/

/-- Taking one attribute away leaves all of another kind. -/
theorem filter_eraseP {p q : Attribute → Bool} {as : List Attribute}
    (h : ∀ a ∈ as, p a = true → q a = false) : (as.eraseP p).filter q = as.filter q := by
  induction as with
  | nil => rfl
  | cons a as ih =>
    obtain ⟨ha, has⟩ := List.forall_mem_cons.1 h
    rcases hp : p a with _ | _
    · rw [List.eraseP_cons_of_neg (by simp [hp]), List.filter_cons, List.filter_cons, ih has]
    · rw [List.eraseP_cons_of_pos hp, List.filter_cons_of_neg (by simp [ha hp])]

/-- Taking the first attribute of a name away leaves the other ones of it. -/
theorem filter_named_eraseP {name other : String} (h : sameName name other = true)
    (as : List Attribute) :
    (as.eraseP (Attribute.named name)).filter (Attribute.named other) =
      (as.filter (Attribute.named other)).tail := by
  induction as with
  | nil => rfl
  | cons a as ih =>
    rcases ha : a.named other with _ | _
    · rw [List.eraseP_cons_of_neg (by simp [named_congr h, ha]),
        List.filter_cons_of_neg (by simp [ha]), List.filter_cons_of_neg (by simp [ha]), ih]
    · rw [List.eraseP_cons_of_pos ((named_congr h a).trans ha), List.filter_cons_of_pos ha,
        List.tail_cons]

/-- Setting an attribute leaves all of another kind, if those of its name are not of that kind. -/
theorem filter_put {name : String} {q : Attribute → Bool}
    (h : ∀ a : Attribute, a.named name = true → q a = false) (value : String) (encoded : Bool)
    (as : List Attribute) : (Element.put name value encoded as).filter q = as.filter q := by
  induction as with
  | nil => exact List.filter_cons_of_neg (by simp [h ⟨name, value, encoded⟩ (sameName_self name)])
  | cons a as ih =>
    rw [Element.put]
    split
    · rename_i ha
      rw [List.filter_cons_of_neg (by simp [h ⟨a.name, value, encoded⟩ ha]),
        List.filter_cons_of_neg (by simp [h a ha])]
    · rw [List.filter_cons, List.filter_cons, ih]

/-- Names that are the same are addressed by the same attributes. -/
theorem addresses_congr {name other : String} (h : sameName name other = true) (b : Attribute) :
    addresses name b = addresses other b := by
  have hsame : ∀ s, sameName s name = sameName s other := fun s => by
    rw [sameName_comm, sameName_congr h, sameName_comm]
  simp only [addresses, Attribute.named, hsame]

/-- An attribute that is addressed has no name that is not. -/
theorem named_of_addresses {name : String} {a b : Attribute} (h : addresses name b = false)
    (ha : addresses a.name b = true) : a.named name = false := by
  refine Bool.eq_false_iff.2 fun hname => Bool.false_ne_true ?_
  exact (h.symm.trans (addresses_congr hname b).symm).trans ha

variable {scope : Data} {isInstance : Bool} {e : Element} {q : Attribute → Bool}

/-- Of the attributes that are not of its target's name, a bound attribute takes away the first
one of its own name. -/
theorem filter_bindOne {b : Attribute}
    (h : ∀ target, boundName? b.name = some target →
      ∀ a : Attribute, a.named target = true → q a = false)
    (scope : Data) (isInstance : Bool) (e : Element) :
    (bindOne scope isInstance e b).attrs.filter q = (e.removeAttr b.name).attrs.filter q := by
  unfold bindOne
  dsimp only
  split
  · rfl
  · rename_i target hbound
    split
    · exact filter_eraseP fun a _ => h target hbound a
    · split <;> exact filter_put (h target hbound) _ _ _

/-- A bound attribute leaves all attributes alone that it does not address. -/
theorem filter_bindOne_apart {b : Attribute}
    (h : ∀ a : Attribute, addresses a.name b = true → q a = false)
    (scope : Data) (isInstance : Bool) (e : Element) :
    (bindOne scope isInstance e b).attrs.filter q = e.attrs.filter q := by
  rw [filter_bindOne]
  · refine filter_eraseP fun a _ ha => h a ?_
    rw [addresses, Attribute.named, sameName_comm]
    exact Bool.or_eq_true_iff.2 (.inl ha)
  · intro target hbound a ha
    refine h a (Bool.or_eq_true_iff.2 (.inr ?_))
    rw [hbound, Option.any_some, sameName_comm]
    exact ha

/-- A run of bound attributes leaves alone what none of them addresses. -/
theorem filter_foldl_bindOne {bs : List Attribute}
    (h : ∀ b ∈ bs, ∀ a : Attribute, addresses a.name b = true → q a = false) (e : Element) :
    (bs.foldl (bindOne scope isInstance) e).attrs.filter q = e.attrs.filter q := by
  induction bs generalizing e with
  | nil => rfl
  | cons b bs ih =>
    obtain ⟨hb, hbs⟩ := List.forall_mem_cons.1 h
    rw [List.foldl_cons, ih hbs, filter_bindOne_apart hb]

/-- **Attributes that no bound attribute addresses stay as they are.** -/
theorem filter_bindAttributes {name : String}
    (h : ∀ b ∈ e.attrs, (boundName? b.name).isSome → addresses name b = false) :
    (bindAttributes scope isInstance e).attrs.filter (Attribute.named name) =
      e.attrs.filter (Attribute.named name) :=
  filter_foldl_bindOne (fun b hb _ => named_of_addresses
    (h b (List.mem_of_mem_filter hb) (List.mem_filter.1 hb).2)) e

/-! ### Bound attributes that go -/

/-- Bound attributes that do not set a name take away as many attributes of it as they are
themselves. -/
theorem filter_foldl_bindOne_own {name : String} {bs : List Attribute}
    (h : ∀ b ∈ bs, ∀ target, boundName? b.name = some target → sameName name target = false)
    (e : Element) :
    (bs.foldl (bindOne scope isInstance) e).attrs.filter (Attribute.named name) =
      (e.attrs.filter (Attribute.named name)).drop (bs.countP (Attribute.named name)) := by
  induction bs generalizing e with
  | nil => rfl
  | cons b bs ih =>
    obtain ⟨hb, hbs⟩ := List.forall_mem_cons.1 h
    have hone : (bindOne scope isInstance e b).attrs.filter (Attribute.named name) =
        (e.removeAttr b.name).attrs.filter (Attribute.named name) := by
      refine filter_bindOne (fun target hbound a ha => Bool.eq_false_iff.2 fun hname => ?_) _ _ _
      rw [Attribute.named, sameName_congr ha, sameName_comm, hb target hbound] at hname
      cases hname
    rw [List.foldl_cons, ih hbs, hone, List.countP_cons, Element.removeAttr]
    rcases hname : b.named name with _ | _
    · have hkept : (e.attrs.eraseP (Attribute.named b.name)).filter (Attribute.named name) =
          e.attrs.filter (Attribute.named name) :=
        filter_eraseP fun a _ ha => (sameName_congr ha name).trans hname
      exact congrArg (List.drop _) hkept
    · rw [filter_named_eraseP hname, List.drop_tail, if_pos rfl]

/-- **A bound name that no bound attribute sets is gone.** -/
theorem filter_bindAttributes_own {name : String} (hbound : (boundName? name).isSome)
    (h : ∀ b ∈ e.attrs, ∀ target, boundName? b.name = some target → sameName name target = false) :
    (bindAttributes scope isInstance e).attrs.filter (Attribute.named name) = [] := by
  rw [bindAttributes, filter_foldl_bindOne_own fun b hb => h b (List.mem_of_mem_filter hb),
    List.countP_filter, List.drop_eq_nil_iff, ← List.countP_eq_length_filter]
  refine List.countP_mono_left fun a _ ha => ?_
  rw [ha, isSome_boundName?_congr ha, hbound]
  rfl

/-! ### The target of a bound attribute -/

/-- Where there is no attribute of the target's name, a bound attribute sets one if it gets a
value: the text of the value, or on an instance its JSON text. -/
theorem filter_bindOne_target {b : Attribute} {target : String}
    (hbound : boundName? b.name = some target)
    (h : e.attrs.filter (Attribute.named target) = []) :
    (bindOne scope isInstance e b).attrs.filter (Attribute.named target) =
      (boundValue? scope b.value).toList.map fun v =>
        ⟨target, if isInstance then v.print else v.toText, isInstance⟩ := by
  have hput : ∀ (value : String) (encoded : Bool) {as : List Attribute},
      as.filter (Attribute.named target) = [] →
        (Element.put target value encoded as).filter (Attribute.named target) =
          [⟨target, value, encoded⟩] := by
    intro value encoded as has
    induction as with
    | nil => exact List.filter_cons_of_pos (sameName_self target)
    | cons a as ih =>
      rcases ha : a.named target with _ | _
      · rw [List.filter_cons_of_neg (by simp [ha])] at has
        rw [Element.put, if_neg (by simp [ha]), List.filter_cons_of_neg (by simp [ha]), ih has]
      · rw [List.filter_cons_of_pos ha] at has
        cases has
  have hremoved : (e.removeAttr b.name).attrs.filter (Attribute.named target) = [] :=
    (filter_eraseP fun a _ ha => (sameName_congr ha target).trans (sameName_boundName? hbound)).trans
      h
  rw [bindOne, hbound]
  dsimp only
  rcases boundValue? scope b.value with _ | v
  · exact List.filter_eq_nil_iff.2 fun a ha =>
      List.filter_eq_nil_iff.1 hremoved a (List.mem_of_mem_eraseP ha)
  · cases isInstance <;> exact hput _ _ hremoved

/-- A bound attribute is the only one that addresses its target or itself. -/
def Alone (attrs : List Attribute) (b : Attribute) (target : String) : Prop :=
  (attrs.filter fun a => addresses target a || addresses b.name a) = [b]

/-- What addresses the target of a bound attribute that is alone, or itself, is that attribute. -/
theorem Alone.eq_of_addresses {attrs : List Attribute} {a b : Attribute} {target : String}
    (h : Alone attrs b target) (ha : a ∈ attrs)
    (haddresses : addresses target a = true ∨ addresses b.name a = true) : a = b := by
  have hmem : a ∈ [b] := h ▸ List.mem_filter.2 ⟨ha, Bool.or_eq_true_iff.2 haddresses⟩
  exact List.mem_singleton.1 hmem

/-- **A bound attribute that is alone decides what its target is.** -/
theorem filter_bindAttributes_target {b : Attribute} {target : String}
    (hbound : boundName? b.name = some target) (halone : Alone e.attrs b target) :
    (bindAttributes scope isInstance e).attrs.filter (Attribute.named target) =
      (boundValue? scope b.value).toList.map fun v =>
        ⟨target, if isInstance then v.print else v.toText, isInstance⟩ := by
  have hnone : e.attrs.filter (Attribute.named target) = [] := by
    refine List.filter_eq_nil_iff.2 fun a ha hnamed => ?_
    obtain rfl := halone.eq_of_addresses ha (.inl (Bool.or_eq_true_iff.2 (.inl hnamed)))
    exact Bool.false_ne_true ((sameName_boundName? hbound).symm.trans hnamed)
  -- the bound attributes before it and after it address something else
  have hbounds : (e.attrs.filter fun a => (boundName? a.name).isSome).filter
      (fun a => addresses target a || addresses b.name a) = [b] := by
    rw [List.filter_comm, halone]
    exact List.filter_cons_of_pos (by simp [hbound])
  obtain ⟨before, after, hsplit, hbefore, -, hafter⟩ := List.filter_eq_cons_iff.1 hbounds
  have hother : ∀ c, ¬(addresses target c || addresses b.name c) = true →
      ∀ a : Attribute, addresses a.name c = true → a.named target = false := fun c hc a => by
    simp only [Bool.or_eq_true, not_or, Bool.not_eq_true] at hc
    exact named_of_addresses hc.1
  rw [bindAttributes, hsplit, List.foldl_append, List.foldl_cons, filter_foldl_bindOne
    fun c hc => hother c (List.filter_eq_nil_iff.1 hafter c hc)]
  refine filter_bindOne_target hbound ?_
  rw [filter_foldl_bindOne fun c hc => hother c (hbefore c hc), hnone]

/-- What a bound attribute promises of its target: it is there if the condition holds, and then it
is the value at the path, or `true` where the path is negated. -/
def Promised (scope : Data) (expr : String) (value? : Option Json) : Prop :=
  value?.isSome = scope.conditionHolds expr ∧ ∀ v ∈ value?,
    match Data.negated? expr with
    | some _ => v = .bool true
    | none => scope.lookup expr = some v

/-- A bound attribute gets what it promises. -/
theorem promised_boundValue? (scope : Data) (expr : String) :
    Promised scope expr (boundValue? scope expr) := by
  rw [Promised, boundValue?, Data.conditionHolds]
  rcases Data.negated? expr with _ | path
  · refine ⟨?_, fun v hv => (Option.filter_eq_some_iff.1 hv).1⟩
    rw [Data.truthy]
    rcases scope.lookup expr with _ | v
    · rfl
    · rcases hv : v.holds <;> simp [Option.filter, hv]
  · by_cases htruthy : scope.truthy path = true <;> simp [htruthy]

/-! ### Marks -/

/-- Encoded attributes hold the text of a value that can be read back, and are the first ones of
their names. -/
structure Marked (attrs : List Attribute) : Prop where
  readable : ∀ a ∈ attrs, a.encoded = true → ∃ v : Json, v.Readable ∧ a.value = v.print
  first : attrs.Pairwise fun a b => b.encoded = true → sameName a.name b.name = false

namespace Marked

variable {attrs : List Attribute}

/-- Fewer attributes in the same order are marked right as well. -/
theorem sublist {as : List Attribute} (h : Marked attrs) (hsub : as.Sublist attrs) : Marked as :=
  ⟨fun a ha => h.readable a (hsub.subset ha), h.first.sublist hsub⟩

/-- Where nothing is encoded, the marks are right. -/
theorem of_unmarked (h : ∀ a ∈ attrs, a.encoded = false) : Marked attrs :=
  ⟨fun a ha hencoded => absurd (hencoded.symm.trans (h a ha)) (by decide),
    List.pairwise_of_forall_mem_list fun _ _ b hb hencoded =>
      absurd (hencoded.symm.trans (h b hb)) (by decide)⟩

/-- After an attribute is set there are those of before, and one of its name. -/
theorem mem_put {name value : String} {encoded : Bool} {a : Attribute}
    (h : a ∈ Element.put name value encoded attrs) : a ∈ attrs ∨ a.named name = true := by
  induction attrs with
  | nil => exact .inr (List.mem_singleton.1 h ▸ sameName_self name)
  | cons b attrs ih =>
    rw [Element.put] at h
    split at h
    · rename_i hb
      rcases List.mem_cons.1 h with rfl | h
      · exact .inr hb
      · exact .inl (List.mem_cons_of_mem b h)
    · rcases List.mem_cons.1 h with rfl | h
      · exact .inl List.mem_cons_self
      · exact (ih h).imp_left (List.mem_cons_of_mem b)

/-- Setting an attribute keeps the marks right, if an encoded one gets the text of a value. -/
theorem put (h : Marked attrs) (name : String) {value : String} {encoded : Bool}
    (hvalue : encoded = true → ∃ v : Json, v.Readable ∧ value = v.print) :
    Marked (Element.put name value encoded attrs) := by
  induction attrs with
  | nil =>
    refine ⟨fun a ha => ?_, List.pairwise_singleton _ _⟩
    obtain rfl := List.mem_singleton.1 ha
    exact hvalue
  | cons a attrs ih =>
    obtain ⟨ha, hattrs⟩ := List.forall_mem_cons.1 h.readable
    obtain ⟨hfirst, hrest⟩ := List.pairwise_cons.1 h.first
    rw [Element.put]
    split
    · exact ⟨List.forall_mem_cons.2 ⟨hvalue, hattrs⟩, List.pairwise_cons.2 ⟨hfirst, hrest⟩⟩
    · rename_i hname
      have hput := ih ⟨hattrs, hrest⟩
      refine ⟨List.forall_mem_cons.2 ⟨ha, hput.readable⟩, List.pairwise_cons.2 ⟨?_, hput.first⟩⟩
      intro b hb hencoded
      rcases mem_put hb with hb | hb
      · exact hfirst b hb hencoded
      · rw [sameName_comm, sameName_congr hb, sameName_comm]
        exact Bool.eq_false_iff.2 hname

/-- One bound attribute keeps the marks right. -/
theorem bindOne (h : Marked e.attrs) (hscope : scope.Readable) (b : Attribute) :
    Marked (bindOne scope isInstance e b).attrs := by
  have hremoved : Marked (e.removeAttr b.name).attrs := h.sublist List.eraseP_sublist
  unfold Directive.bindOne
  dsimp only
  split
  · exact hremoved
  · rename_i target _
    split
    · exact hremoved.sublist List.eraseP_sublist
    · rename_i v hv
      split
      · exact hremoved.put target fun _ => ⟨v, readable_boundValue? hscope hv, rfl⟩
      · exact hremoved.put target fun hencoded => absurd hencoded (by decide)

/-- **Bound attributes keep the marks right.** -/
theorem bindAttributes (h : Marked e.attrs) (hscope : scope.Readable) :
    Marked (bindAttributes scope isInstance e).attrs := by
  unfold Directive.bindAttributes
  generalize e.attrs.filter _ = bounds
  induction bounds generalizing e with
  | nil => exact h
  | cons b bounds ih => exact ih (h.bindOne hscope b)

/-- If one attribute of a name is not encoded, the last one is not. -/
theorem last_of_name (h : Marked attrs) {a last : Attribute}
    (ha : a ∈ attrs) (hplain : a.encoded = false)
    (hlast : (attrs.filter (·.name == a.name)).getLast? = some last) : last.encoded = false := by
  obtain ⟨front, hfront⟩ := List.getLast?_eq_some_iff.1 hlast
  have hmem : a ∈ front ++ [last] := hfront ▸ List.mem_filter.2 ⟨ha, BEq.rfl⟩
  have hname : last ∈ attrs.filter (·.name == a.name) := by simp [hfront]
  have hfirst := (h.sublist (attrs.filter_sublist (p := (·.name == a.name)))).first
  rw [hfront, List.pairwise_append] at hfirst
  rcases List.mem_append.1 hmem with ha | ha
  · refine Bool.eq_false_iff.2 fun hencoded => ?_
    have hother := hfirst.2.2 a ha last List.mem_cons_self hencoded
    rw [eq_of_beq (List.mem_filter.1 hname).2] at hother
    exact Bool.false_ne_true (hother.symm.trans (sameName_self a.name))
  · exact List.mem_singleton.1 ha ▸ hplain

end Marked

end Directive
end HtmlCompose
