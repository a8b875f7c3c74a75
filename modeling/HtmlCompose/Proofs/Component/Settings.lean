/-
# The records of settings are in order

A value that has been read as JSON holds records in order only, for the entries of an object are set
one after another (`Json.ordered_of_read?`); so does a value of a TOML document
(`Toml.Value.ordered_toJson`).  Therefore the data and the conditions of a manifest are in order,
whichever form it has (`Settings.ordered_of_ofJson`, `Settings.ordered_of_ofToml`).
-/
import HtmlCompose.Component.Settings
import HtmlCompose.Proofs.Data.Records

namespace HtmlCompose

/-! ### Values that are read -/

namespace Json

/-- Setting entries one after another leaves their values in order. -/
theorem orderedFields_ofList {entries : List (String × Json)} (h : OrderedFields entries) :
    OrderedFields (Record.ofList entries) := by
  rw [orderedFields_iff] at h ⊢
  exact fun entry hentry => h entry (Record.mem_of_mem_ofList hentry)

/-- An object whose entries are set one after another is in order. -/
theorem ordered_object_ofList {entries : List (String × Json)} (h : OrderedFields entries) :
    (object (Record.ofList entries)).Ordered :=
  ⟨Record.ordered_ofList entries, orderedFields_ofList h⟩

namespace Reader

/-- What up to `n` steps read is in order. -/
structure ReadsOrdered (n : Nat) : Prop where
  value : ∀ {kept depth s v rest}, value kept n depth s = some (v, rest) → v.Ordered
  items : ∀ {kept depth s vs rest}, items kept n depth s = some (vs, rest) → OrderedItems vs
  members : ∀ {keptKeys kept depth s fields rest},
    members keptKeys kept n depth s = some (fields, rest) → OrderedFields fields

namespace ReadsOrdered

variable {n depth : Nat} {s rest : List Char} (h : ReadsOrdered n)

include h

/-- One step more reads a value in order. -/
theorem value_succ {kept : Bool} {v : Json}
    (hread : Reader.value kept (n + 1) depth s = some (v, rest)) : v.Ordered := by
  rw [Reader.value] at hread
  split at hread
  · cases hread; trivial
  · cases hread; trivial
  · cases hread; trivial
  · obtain ⟨_, -, hread⟩ := Option.map_eq_some_iff.1 hread
    cases hread; trivial
  · split_ifs at hread
    split at hread
    · cases hread; trivial
    · obtain ⟨_, hitems, hread⟩ := Option.map_eq_some_iff.1 hread
      cases hread
      exact h.items hitems
  · split_ifs at hread
    split at hread
    · cases hread
      exact ⟨List.Pairwise.nil, trivial⟩
    · obtain ⟨_, hmembers, hread⟩ := Option.map_eq_some_iff.1 hread
      cases hread
      exact ordered_object_ofList (h.members hmembers)
  · obtain ⟨_, -, hread⟩ := Option.map_eq_some_iff.1 hread
    cases hread; trivial

/-- One step more reads the items of an array in order. -/
theorem items_succ {kept : Bool} {vs : List Json}
    (hread : Reader.items kept (n + 1) depth s = some (vs, rest)) : OrderedItems vs := by
  rw [Reader.items] at hread
  obtain ⟨⟨v, _⟩, hvalue, hread⟩ := Option.bind_eq_some_iff.1 hread
  dsimp only at hread
  split at hread
  · cases hread
    exact ⟨h.value hvalue, trivial⟩
  · obtain ⟨_, hitems, hread⟩ := Option.bind_eq_some_iff.1 hread
    cases hread
    exact ⟨h.value hvalue, h.items hitems⟩
  · cases hread

/-- One step more reads the entries of an object in order. -/
theorem members_succ {keptKeys : Bool} {kept : String → Bool} {fields : List (String × Json)}
    (hread : Reader.members keptKeys kept (n + 1) depth s = some (fields, rest)) :
    OrderedFields fields := by
  rw [Reader.members] at hread
  split at hread
  · obtain ⟨⟨key, _⟩, -, hread⟩ := Option.bind_eq_some_iff.1 hread
    dsimp only at hread
    split at hread
    · obtain ⟨⟨v, _⟩, hvalue, hread⟩ := Option.bind_eq_some_iff.1 hread
      dsimp only at hread
      split at hread
      · cases hread
        exact ⟨h.value hvalue, trivial⟩
      · obtain ⟨_, hmembers, hread⟩ := Option.bind_eq_some_iff.1 hread
        cases hread
        exact ⟨h.value hvalue, h.members hmembers⟩
      · cases hread
    · cases hread
  · cases hread

end ReadsOrdered

/-- However many steps there are, what is read is in order. -/
theorem readsOrdered (n : Nat) : ReadsOrdered n := by
  induction n with
  | zero =>
    exact ⟨fun h => by simp [value] at h, fun h => by simp [items] at h,
      fun h => by simp [members] at h⟩
  | succ n ih => exact ⟨ih.value_succ, ih.items_succ, ih.members_succ⟩

/-- What is read as a whole is what has been found. -/
theorem whole_eq_some {α : Type} {found : α × List Char} {a : α} (h : whole found = some a) :
    found.1 = a := by
  obtain ⟨first, rest⟩ := found
  rw [whole] at h
  split_ifs at h
  exact Option.some.inj h

/-- The entries of a document that are wanted are in order. -/
theorem ordered_of_entries? {wanted : String → Bool} {s : List Char}
    {entries : List (String × Json)} (h : entries? wanted s = some entries) :
    OrderedFields entries := by
  unfold entries? at h
  split at h
  · split at h
    · obtain rfl := whole_eq_some h
      trivial
    · obtain ⟨found, hmembers, h⟩ := Option.bind_eq_some_iff.1 h
      obtain rfl := whole_eq_some h
      exact (readsOrdered _).members hmembers
  · cases h

end Reader

/-- **A value that has been read is in order.** -/
theorem ordered_of_read? {s : String} {v : Json} (h : read? s = some v) : v.Ordered := by
  obtain ⟨found, hvalue, h⟩ := Option.bind_eq_some_iff.1 h
  obtain rfl := Reader.whole_eq_some h
  exact (Reader.readsOrdered _).value hvalue

end Json

namespace Toml.Value

mutual
/-- **A value of a TOML document is in order** as data. -/
theorem ordered_toJson : ∀ v : Value, v.toJson.Ordered
  | .string _ | .integer _ | .float (some _) | .float none | .boolean _ => trivial
  | .datetime _ => ⟨List.pairwise_singleton _ _, trivial, trivial⟩
  | .array items => orderedItems_itemsToJson items
  | .table entries => Json.ordered_object_ofList (orderedFields_entriesToJson entries)

/-- The items of an array are in order as data. -/
theorem orderedItems_itemsToJson : ∀ items : List Value, Json.OrderedItems (itemsToJson items)
  | [] => trivial
  | v :: vs => ⟨ordered_toJson v, orderedItems_itemsToJson vs⟩

/-- The entries of a table are in order as data. -/
theorem orderedFields_entriesToJson :
    ∀ entries : List (String × Value), Json.OrderedFields (entriesToJson entries)
  | [] => trivial
  | (_, v) :: entries => ⟨ordered_toJson v, orderedFields_entriesToJson entries⟩
end

end Toml.Value

/-! ### Manifests -/

namespace Settings

/-- All records that settings hold are in order. -/
structure Ordered (s : Settings) : Prop where
  data : (Json.object s.data).Ordered
  when_ : s.when_.Ordered
  overrides : ∀ entry ∈ s.when_, (Json.object entry.2).Ordered

/-- The fields of a value in order are in order. -/
theorem ordered_of_fields? {value : Json} (hvalue : value.Ordered) {fields : Data}
    (h : value.fields? = some fields) : (Json.object fields).Ordered := by
  cases value
  case object => exact Option.some.inj h ▸ hvalue
  all_goals cases h

/-- A value in order, or no fields in its place, is in order. -/
theorem ordered_objectOrEmpty {value : Json} (hvalue : value.Ordered) :
    (Json.object (objectOrEmpty value)).Ordered := by
  rw [objectOrEmpty]
  rcases h : value.fields? with _ | fields
  · exact ⟨List.Pairwise.nil, trivial⟩
  · exact ordered_of_fields? hvalue h

/-- Conditions are read entry by entry. -/
theorem mapM_fields? {fields : Data} {conditions : Record Data}
    (h : (fields.mapM fun (condition, v) => v.fields?.map fun overrides => (condition, overrides)) =
      some conditions) :
    conditions.map Prod.fst = fields.map Prod.fst ∧
      ∀ entry ∈ conditions, ∃ v, (entry.1, v) ∈ fields ∧ v.fields? = some entry.2 := by
  induction fields generalizing conditions with
  | nil =>
    cases h
    exact ⟨rfl, fun _ hmem => by cases hmem⟩
  | cons field fields ih =>
    rw [List.mapM_cons] at h
    obtain ⟨first, hfirst, h⟩ := Option.bind_eq_some_iff.1 h
    obtain ⟨rest, hrest, h⟩ := Option.bind_eq_some_iff.1 h
    obtain ⟨overrides, hoverrides, rfl⟩ := Option.map_eq_some_iff.1 hfirst
    cases h
    obtain ⟨hkeys, hentries⟩ := ih hrest
    refine ⟨by rw [List.map_cons, hkeys, List.map_cons], List.forall_mem_cons.2
      ⟨⟨field.2, List.mem_cons_self, hoverrides⟩, fun entry hentry => ?_⟩⟩
    obtain ⟨v, hv, hfields⟩ := hentries entry hentry
    exact ⟨v, List.mem_cons_of_mem _ hv, hfields⟩

/-- The conditions of a manifest are in order, and so is what they override. -/
theorem ordered_of_overrides? {value : Json} (hvalue : value.Ordered) {conditions : Record Data}
    (h : overrides? value = some conditions) :
    conditions.Ordered ∧ ∀ entry ∈ conditions, (Json.object entry.2).Ordered := by
  obtain ⟨fields, hfields, h⟩ := Option.bind_eq_some_iff.1 h
  obtain ⟨hordered, hentries⟩ := Json.ordered_object_iff.1 (ordered_of_fields? hvalue hfields)
  obtain ⟨hkeys, hread⟩ := mapM_fields? h
  refine ⟨by rw [Record.Ordered, hkeys]; exact hordered, fun entry hentry => ?_⟩
  obtain ⟨v, hv, hoverrides⟩ := hread entry hentry
  exact ordered_of_fields? (hentries _ hv) hoverrides

/-- Settings made of fields in order are in order. -/
theorem ordered_of_ofFields? {data imports plugins when_ : Option Json}
    (hdata : ∀ value ∈ data, value.Ordered) (hwhen : ∀ value ∈ when_, value.Ordered)
    {s : Settings} (h : ofFields? data imports plugins when_ = some s) : s.Ordered := by
  obtain ⟨imports, -, h⟩ := Option.bind_eq_some_iff.1 h
  obtain ⟨conditions, hconditions, h⟩ := Option.bind_eq_some_iff.1 h
  cases h
  have hwhen : conditions.Ordered ∧ ∀ entry ∈ conditions, (Json.object entry.2).Ordered := by
    rcases when_ with _ | value
    · cases hconditions
      exact ⟨List.Pairwise.nil, fun _ hmem => by cases hmem⟩
    · exact ordered_of_overrides? (hwhen value rfl) hconditions
  refine ⟨?_, hwhen.1, hwhen.2⟩
  rcases data with _ | value
  · exact ⟨List.Pairwise.nil, trivial⟩
  · exact ordered_objectOrEmpty (hdata value rfl)

/-- Settings made of the entries of a manifest in order are in order. -/
theorem ordered_of_ofEntries? {entries : Data} (hentries : (Json.object entries).Ordered)
    {s : Settings} (h : ofEntries? entries = some s) : s.Ordered :=
  have hvalue : ∀ {key : String}, ∀ value ∈ Record.get? entries key, value.Ordered :=
    fun _ hget => (Json.ordered_object_iff.1 hentries).2 _ (Record.mem_of_get? hget)
  ordered_of_ofFields? hvalue hvalue h

/-- Settings that are returned have been found. -/
theorem eq_some_of_ok {found : Option Settings} {error : ManifestError} {s : Settings}
    (h : (match found with | some s => Except.ok s | none => .error error) = .ok s) :
    found = some s := by
  rcases found with _ | found
  · cases h
  · exact congrArg some (Except.ok.inj h)

/-- **A JSON manifest gives settings in order.** -/
theorem ordered_of_ofJson {text : String} {s : Settings} (h : ofJson text = .ok s) : s.Ordered := by
  have hfound := eq_some_of_ok h
  split at hfound
  next entries hentries =>
    split_ifs at hfound
    exact ordered_of_ofEntries? (Json.ordered_object_ofList
      (Json.Reader.ordered_of_entries? hentries)) hfound
  next =>
    split at hfound
    next items hread =>
      split_ifs at hfound
      have hitems : ∀ {n : Nat}, ∀ value ∈ items[n]?, value.Ordered := fun value hget =>
        Json.orderedItems_iff.1 (Json.ordered_of_read? hread) value (List.mem_of_getElem? hget)
      exact ordered_of_ofFields? hitems hitems hfound
    next => cases hfound

/-- **A TOML manifest gives settings in order.** -/
theorem ordered_of_ofToml {text : String} {s : Settings} (h : ofToml text = .ok s) : s.Ordered := by
  obtain ⟨entries, hentries, hfound⟩ := Option.bind_eq_some_iff.1 (eq_some_of_ok h)
  obtain ⟨table, -, rfl⟩ := Option.map_eq_some_iff.1 hentries
  exact ordered_of_ofEntries? (Json.ordered_object_ofList
    (Toml.Value.orderedFields_entriesToJson table)) hfound

end Settings
end HtmlCompose
