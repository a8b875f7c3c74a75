/-
# Records in key order

A record is in order if its keys ascend.  No key stands twice in it then, its entries are its keys
with what they are looked up as (`Ordered.get?_eq_some_iff`), and nothing else is in it
(`Ordered.ext`).  Setting keys keeps a record in order (`Ordered.insertAll`), whatever order they
are set in.

Keys that are set one after another are looked up as what was set last (`get?_foldl`).

A data value is in order if all objects in it are records in order, as they are where a value has
been read (`Json.Ordered`).
-/
import Mathlib.Data.String.Basic
import Mathlib.Data.List.Nodup
import HtmlCompose.Data.Json

namespace HtmlCompose
namespace Record

variable {α β γ : Type} {r s : Record α} {key : String} {v : α}

/-- The keys ascend. -/
def Ordered (r : Record α) : Prop := (r.map Prod.fst).Pairwise (· < ·)

instance : Decidable r.Ordered :=
  inferInstanceAs (Decidable ((r.map Prod.fst).Pairwise (· < ·)))

/-- No key stands twice in a record in order. -/
theorem Ordered.nodup (h : r.Ordered) : (r.map Prod.fst).Nodup := h.imp ne_of_lt

/-- The entries of a record in order ascend by their keys. -/
theorem Ordered.pairwise (h : r.Ordered) : r.Pairwise fun a b => a.1 < b.1 := List.pairwise_map.1 h

/-- A record is in order if its first key is below all others and the rest is in order. -/
theorem ordered_cons {entry : String × α} :
    Ordered (entry :: r) ↔ (∀ other ∈ r, entry.1 < other.1) ∧ r.Ordered := by
  rw [Ordered, List.map_cons, List.pairwise_cons, List.forall_mem_map]
  rfl

/-- A part of a record in order is in order. -/
theorem Ordered.filter (h : r.Ordered) (p : String × α → Bool) : Ordered (List.filter p r) :=
  h.sublist (List.filter_sublist.map _)

/-! ### Looking up -/

/-- What a key is looked up as is an entry. -/
theorem mem_of_get? (h : r.get? key = some v) : (key, v) ∈ r := by
  obtain ⟨entry, hentry, rfl⟩ := Option.map_eq_some_iff.1 h
  have hkey := List.find?_some hentry
  rw [beq_iff_eq] at hkey
  exact hkey ▸ List.mem_of_find?_eq_some hentry

/-- A key that no entry has is not found. -/
theorem get?_eq_none (h : ∀ entry ∈ r, entry.1 ≠ key) : r.get? key = none := by
  rw [get?, List.find?_eq_none.2 fun entry hentry => by simpa using h entry hentry, Option.map_none]

/-- **The entries of a record in order are what its keys are looked up as.** -/
theorem Ordered.get?_eq_some_iff (h : r.Ordered) : r.get? key = some v ↔ (key, v) ∈ r := by
  refine ⟨mem_of_get?, fun hmem => ?_⟩
  induction r with
  | nil => cases hmem
  | cons entry r ih =>
    obtain ⟨hfirst, h⟩ := ordered_cons.1 h
    rw [get?_cons]
    rcases List.mem_cons.1 hmem with rfl | hmem
    · exact if_pos rfl
    · rw [if_neg (hfirst _ hmem).ne]
      exact ih h hmem

/-- The entries of one key are the one that it is looked up as. -/
theorem Ordered.filter_key (h : r.Ordered) (key : String) :
    List.filter (·.1 == key) r = ((r.get? key).map (key, ·)).toList := by
  induction r with
  | nil => rfl
  | cons entry r ih =>
    obtain ⟨hfirst, h⟩ := ordered_cons.1 h
    rw [get?_cons, List.filter_cons]
    by_cases hkey : entry.1 = key
    · have hnone : List.filter (·.1 == key) r = [] := List.filter_eq_nil_iff.2 fun other hother => by
        simpa using (hkey ▸ hfirst other hother).ne'
      rw [if_pos (beq_iff_eq.2 hkey), if_pos hkey, hnone, ← hkey]
      rfl
    · rw [if_neg (by simpa using hkey), if_neg hkey, ih h]

/-- **Records in order are the same if they are looked up the same.** -/
theorem Ordered.ext (hr : r.Ordered) (hs : s.Ordered) (h : ∀ key, r.get? key = s.get? key) :
    r = s := by
  have hperm : r.Perm s := (List.perm_ext_iff_of_nodup (List.Nodup.of_map _ hr.nodup)
    (List.Nodup.of_map _ hs.nodup)).2 fun ⟨key, v⟩ => by
      rw [← hr.get?_eq_some_iff, ← hs.get?_eq_some_iff, h]
  exact hperm.eq_of_pairwise (fun a b _ _ hab hba => absurd hab (lt_asymm hba)) hr.pairwise hs.pairwise

/-- The values changed or dropped. -/
theorem Ordered.filterMap (h : r.Ordered) (f : α → Option β) :
    Ordered (List.filterMap (fun entry => (f entry.2).map (entry.1, ·)) r) := by
  rw [Ordered, List.pairwise_map, List.pairwise_filterMap]
  refine h.pairwise.imp fun {a b} hab x hx y hy => ?_
  obtain ⟨x, -, rfl⟩ := Option.map_eq_some_iff.1 hx
  obtain ⟨y, -, rfl⟩ := Option.map_eq_some_iff.1 hy
  exact hab

/-- A key of a record whose values have been changed or left out is looked up as its changed
value. -/
theorem Ordered.get?_filterMap (h : r.Ordered) (f : α → Option β) (key : String) :
    get? (List.filterMap (fun entry => (f entry.2).map (entry.1, ·)) r) key =
      (r.get? key).bind f := by
  refine Option.ext fun w => ?_
  rw [(h.filterMap f).get?_eq_some_iff, List.mem_filterMap, Option.bind_eq_some_iff]
  constructor
  · rintro ⟨⟨k, v⟩, hmem, hv⟩
    obtain ⟨w', hw, heq⟩ := Option.map_eq_some_iff.1 hv
    obtain ⟨rfl, rfl⟩ := Prod.mk.inj heq
    exact ⟨v, h.get?_eq_some_iff.2 hmem, hw⟩
  · rintro ⟨v, hv, hw⟩
    exact ⟨(key, v), mem_of_get? hv, by rw [hw, Option.map_some]⟩

/-! ### Setting keys -/

/-- An entry of a record with a key set is that of the key or an old one. -/
theorem mem_insert {entry : String × α} (h : entry ∈ r.insert key v) :
    entry = (key, v) ∨ entry ∈ r := by
  induction r with
  | nil => exact .inl (List.mem_singleton.1 h)
  | cons other r ih =>
    rw [insert] at h
    split_ifs at h
    · exact (List.mem_cons.1 h).imp_right (List.mem_cons_of_mem _)
    · exact List.mem_cons.1 h
    · rcases List.mem_cons.1 h with rfl | h
      · exact .inr List.mem_cons_self
      · exact (ih h).imp_right (List.mem_cons_of_mem _)

/-- An entry of a record with keys set is one of them or an old one. -/
theorem mem_insertAll {entries : List (String × α)} {entry : String × α}
    (h : entry ∈ insertAll entries r) : entry ∈ entries ∨ entry ∈ r := by
  induction entries generalizing r with
  | nil => exact .inr h
  | cons first entries ih =>
    rcases ih h with h | h
    · exact .inl (List.mem_cons_of_mem _ h)
    · refine (mem_insert h).imp_left fun heq => ?_
      rw [heq]
      exact List.mem_cons_self

/-- An entry of the record of a list is an entry of the list. -/
theorem mem_of_mem_ofList {entries : List (String × α)} {entry : String × α}
    (h : entry ∈ ofList entries) : entry ∈ entries :=
  (mem_insertAll h).resolve_right List.not_mem_nil

/-- Setting a key keeps a record in order. -/
theorem Ordered.insert (h : r.Ordered) (key : String) (v : α) : Ordered (Record.insert key v r) := by
  induction r with
  | nil => exact List.pairwise_singleton _ _
  | cons entry r ih =>
    obtain ⟨hfirst, hrest⟩ := ordered_cons.1 h
    rw [Record.insert]
    split_ifs with heq hlt
    · subst heq
      exact ordered_cons.2 ⟨hfirst, hrest⟩
    · refine ordered_cons.2 ⟨fun other hother => ?_, h⟩
      rcases List.mem_cons.1 hother with rfl | hother
      · exact hlt
      · exact hlt.trans (hfirst other hother)
    · refine ordered_cons.2 ⟨fun other hother => ?_, ih hrest⟩
      rcases mem_insert hother with rfl | hother
      · exact lt_of_le_of_ne (not_lt.1 hlt) (Ne.symm heq)
      · exact hfirst other hother

/-- **Setting keys keeps a record in order**, whatever order they are set in. -/
theorem Ordered.insertAll (h : r.Ordered) (entries : List (String × α)) :
    Ordered (Record.insertAll entries r) := by
  induction entries generalizing r with
  | nil => exact h
  | cons entry entries ih => exact ih (h.insert entry.1 entry.2)

/-- The record of a list is in order, whatever order the list is in. -/
theorem ordered_ofList (entries : List (String × α)) : (ofList entries).Ordered :=
  Ordered.insertAll (r := []) List.Pairwise.nil entries

/-- A key behind all others is set at the end. -/
theorem insert_eq_append {r : Record α} {key : String} (h : ∀ entry ∈ r, entry.1 < key) (v : α) :
    r.insert key v = r ++ [(key, v)] := by
  induction r with
  | nil => rfl
  | cons entry r ih =>
    have hentry := h entry List.mem_cons_self
    rw [Record.insert, if_neg hentry.ne', if_neg (lt_asymm hentry), List.cons_append,
      ih fun other hother => h other (List.mem_cons_of_mem _ hother)]

/-- Keys that ascend behind those of a record are put at its end. -/
theorem insertAll_eq_append {entries : List (String × α)} {r : Record α}
    (h : ((r ++ entries).map Prod.fst).Pairwise (· < ·)) : insertAll entries r = r ++ entries := by
  induction entries generalizing r with
  | nil => rw [List.append_nil]; rfl
  | cons entry entries ih =>
    have hlast : ∀ other ∈ r, other.1 < entry.1 := fun other hother => by
      rw [List.map_append, List.pairwise_append] at h
      exact h.2.2 _ (List.mem_map_of_mem hother) _ List.mem_cons_self
    rw [List.append_cons] at h ⊢
    rw [← insert_eq_append hlast] at h ⊢
    exact ih h

/-- Entries in key order are a record as they are. -/
theorem ofList_eq_self {entries : List (String × α)}
    (h : (entries.map Prod.fst).Pairwise (· < ·)) : ofList entries = entries :=
  insertAll_eq_append h

/-- **Steps that each change what a key is looked up as, or leave it**, do so one after another. -/
theorem get?_foldl {step : Record α → β → Record α} {value? : β → Option γ}
    {f : Option α → γ → Option α} {bs : List β}
    (h : ∀ r, ∀ b ∈ bs, (step r b).get? key = (value? b).elim (r.get? key) (f (r.get? key)))
    (r : Record α) :
    (bs.foldl step r).get? key = (bs.filterMap value?).foldl f (r.get? key) := by
  induction bs generalizing r with
  | nil => rfl
  | cons b bs ih =>
    obtain ⟨hb, hbs⟩ := List.forall_mem_cons.1 fun b hb r => h r b hb
    rw [List.foldl_cons, ih (fun r b hb => hbs b hb r), hb, List.filterMap_cons]
    rcases value? b with _ | v <;> rfl

/-- Of values that come one after another, the last one stays. -/
theorem foldl_last (old : Option α) (vs : List α) :
    vs.foldl (fun _ v => some v) old = vs.getLast?.or old := by
  induction vs generalizing old with
  | nil => rfl
  | cons v vs ih =>
    rw [List.foldl_cons, ih, List.getLast?_cons]
    rcases vs.getLast? with _ | w <;> rfl

/-- The values that the entries of a record set a key to. -/
theorem Ordered.filterMap_key (h : r.Ordered) (key : String) :
    r.filterMap (fun entry => if entry.1 = key then some entry.2 else none) =
      (r.get? key).toList := by
  have heq : r.filterMap (fun entry => if entry.1 = key then some entry.2 else none) =
      (List.filter (·.1 == key) r).map (·.2) := by
    rw [← List.filterMap_eq_filter, List.map_filterMap]
    refine List.filterMap_congr fun entry _ => ?_
    by_cases hkey : entry.1 = key <;> simp [Option.guard, hkey]
  rw [heq, h.filter_key]
  rcases r.get? key with _ | v <;> rfl

/-- With the entries of a record in order set, its keys are looked up there first. -/
theorem get?_insertAll {entries : Record α} (h : entries.Ordered) (r : Record α) (key : String) :
    (insertAll entries r).get? key = (entries.get? key).or (r.get? key) := by
  have hstep : ∀ (r : Record α), ∀ entry ∈ entries, (r.insert entry.1 entry.2).get? key =
      (if entry.1 = key then some entry.2 else none).elim (r.get? key) fun v => some v :=
    fun r entry _ => by
      rw [get?_insert]
      by_cases hkey : entry.1 = key <;> simp [hkey]
  rw [insertAll, get?_foldl (f := fun _ v => some v) hstep, h.filterMap_key, foldl_last]
  rcases entries.get? key with _ | v <;> rfl

/-- What the last of several records that has a key has there. -/
def last? (rs : List (Record α)) (key : String) : Option α := (rs.filterMap (get? · key)).getLast?

/-- What is looked up last comes from one of the records. -/
theorem exists_of_last? {rs : List (Record α)} (h : last? rs key = some v) :
    ∃ r ∈ rs, r.get? key = some v :=
  List.mem_filterMap.1 (List.mem_of_getLast? h)

/-- Records put into one, one after another. -/
theorem get?_foldl_insertAll {rs : List (Record α)} (h : ∀ r ∈ rs, r.Ordered) (r : Record α)
    (key : String) :
    (rs.foldl (fun r entries => insertAll entries r) r).get? key = last? (r :: rs) key := by
  have hstep : ∀ (r : Record α), ∀ entries ∈ rs, (insertAll entries r).get? key =
      (entries.get? key).elim (r.get? key) fun v => some v := fun r entries hmem => by
    rw [get?_insertAll (h entries hmem)]
    rcases entries.get? key with _ | v <;> rfl
  rw [get?_foldl (f := fun _ v => some v) hstep, foldl_last, last?, List.filterMap_cons]
  rcases r.get? key with _ | v
  · exact Option.or_none
  · rw [List.getLast?_cons]
    rcases (rs.filterMap (get? · key)).getLast? with _ | w <;> rfl

/-- Keys that do not pass a test change no entry that passes it. -/
theorem filter_insertAll {p : String → Bool} {entries : List (String × α)}
    (h : ∀ entry ∈ entries, p entry.1 = false) (r : Record α) :
    List.filter (fun entry => p entry.1) (insertAll entries r) =
      List.filter (fun entry => p entry.1) r := by
  induction entries generalizing r with
  | nil => rfl
  | cons entry entries ih =>
    obtain ⟨hentry, h⟩ := List.forall_mem_cons.1 h
    refine (ih h (r.insert entry.1 entry.2)).trans ?_
    induction r with
    | nil => rw [Record.insert, List.filter_cons_of_neg (by simp [hentry])]
    | cons other r ihr =>
      rw [Record.insert]
      split_ifs with heq
      · rw [List.filter_cons_of_neg (by simp [hentry]),
          List.filter_cons_of_neg (by simp [← heq, hentry])]
      · rw [List.filter_cons_of_neg (by simp [hentry])]
      · rw [List.filter_cons, List.filter_cons, ihr]

end Record

/-! ### Values -/

namespace Json

mutual
/-- All objects of a value are records in order. -/
def Ordered : Json → Prop
  | .array items => OrderedItems items
  | .object fields => Record.Ordered fields ∧ OrderedFields fields
  | _ => True

def OrderedItems : List Json → Prop
  | [] => True
  | v :: vs => v.Ordered ∧ OrderedItems vs

def OrderedFields : List (String × Json) → Prop
  | [] => True
  | (_, v) :: fields => v.Ordered ∧ OrderedFields fields
end

mutual
def decideOrdered : (v : Json) → Decidable v.Ordered
  | .null | .bool _ | .number _ | .string _ => .isTrue trivial
  | .array items => decideItems items
  | .object fields =>
    have := decideFields fields
    inferInstanceAs (Decidable (Record.Ordered fields ∧ OrderedFields fields))

def decideItems : (vs : List Json) → Decidable (OrderedItems vs)
  | [] => .isTrue trivial
  | v :: vs =>
    have := decideOrdered v
    have := decideItems vs
    inferInstanceAs (Decidable (v.Ordered ∧ OrderedItems vs))

def decideFields : (fields : List (String × Json)) → Decidable (OrderedFields fields)
  | [] => .isTrue trivial
  | (_, v) :: fields =>
    have := decideOrdered v
    have := decideFields fields
    inferInstanceAs (Decidable (v.Ordered ∧ OrderedFields fields))
end

instance : DecidablePred Ordered := decideOrdered

/-- Values in a list are in order if each is. -/
theorem orderedItems_iff {vs : List Json} : OrderedItems vs ↔ ∀ v ∈ vs, v.Ordered := by
  induction vs with
  | nil => simp [OrderedItems]
  | cons v vs ih => simp [OrderedItems, ih]

/-- Values in a record are in order if each is. -/
theorem orderedFields_iff {fields : List (String × Json)} :
    OrderedFields fields ↔ ∀ entry ∈ fields, entry.2.Ordered := by
  induction fields with
  | nil => simp [OrderedFields]
  | cons entry fields ih => simp [OrderedFields, ih]

/-- An object is in order if its keys ascend and its values are in order. -/
theorem ordered_object_iff {fields : List (String × Json)} :
    (object fields).Ordered ↔
      Record.Ordered fields ∧ ∀ entry ∈ fields, entry.2.Ordered := by
  rw [Ordered, orderedFields_iff]

end Json

end HtmlCompose
