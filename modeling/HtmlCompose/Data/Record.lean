/-
# Records kept in key order

A record is a list of keys with values, sorted by key in code point order (which
is the byte order of UTF-8), with no key twice. `insert` and `ofList` keep it so;
`get?` is the view.
-/

namespace HtmlCompose

/-- Keys with their values, in key order. -/
abbrev Record (α : Type) := List (String × α)

namespace Record

variable {α : Type}

/-- The value of a key. -/
def get? (r : Record α) (key : String) : Option α :=
  (r.find? fun entry => entry.1 == key).map (·.2)

/-- The record with a key set to a value. -/
def insert (key : String) (value : α) : Record α → Record α
  | [] => [(key, value)]
  | (k, v) :: rest =>
    if key = k then (key, value) :: rest
    else if key < k then (key, value) :: (k, v) :: rest
    else (k, v) :: insert key value rest

/-- The entries set one after another, so that the last value of a key wins. -/
def insertAll (entries : List (String × α)) (r : Record α) : Record α :=
  entries.foldl (fun r (key, value) => r.insert key value) r

/-- The record of a list of entries; the last value of a key wins. -/
def ofList (entries : List (String × α)) : Record α :=
  insertAll entries []

@[simp] theorem get?_nil (key : String) : get? ([] : Record α) key = none := rfl

/-- A key is looked up in the first entry that has it. -/
theorem get?_cons (k : String) (v : α) (r : Record α) (key : String) :
    get? ((k, v) :: r) key = if k = key then some v else get? r key := by
  by_cases h : k = key <;> simp [get?, h]

/-- Setting a key changes that key alone. -/
theorem get?_insert (r : Record α) (key : String) (value : α) (k : String) :
    (r.insert key value).get? k = if key = k then some value else r.get? k := by
  induction r with
  | nil => simp [insert, get?_cons]
  | cons entry r ih =>
    obtain ⟨k', v'⟩ := entry
    unfold insert
    split
    · subst_vars; simp only [get?_cons]; split <;> simp_all
    · split
      · simp [get?_cons]
      · rw [get?_cons, ih, get?_cons]
        split <;> split <;> simp_all

end Record
end HtmlCompose
