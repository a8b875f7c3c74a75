/-
# Caches that keep what came first

A cache holds a value for some keys. A value is stored only where there is none
yet, so that an entry never changes once it is there.
-/

namespace HtmlCompose

/-- Keys with their values, latest first, no key twice. -/
abbrev Cache (κ α : Type) := List (κ × α)

namespace Cache

variable {κ α : Type} [BEq κ]

/-- The value of a key. -/
def get? (c : Cache κ α) (key : κ) : Option α := c.lookup key

/-- Stores a value unless the key has one. -/
def store (c : Cache κ α) (key : κ) (value : α) : Cache κ α :=
  if (c.get? key).isSome then c else (key, value) :: c

/-- The number of entries with a property of their key. -/
def count (c : Cache κ α) (p : κ → Bool) : Nat := c.countP fun entry => p entry.1

@[simp] theorem get?_nil (key : κ) : get? ([] : Cache κ α) key = none := rfl

/-- Storing gives a key a value only if it had none, and leaves all other keys. -/
theorem get?_store [LawfulBEq κ] (c : Cache κ α) (key k : κ) (value : α) :
    (c.store key value).get? k = (c.get? k).or (if k == key then some value else none) := by
  unfold store
  by_cases hk : k = key
  · subst hk
    cases h : get? c k <;> simp_all [get?]
  · have hb : (k == key) = false := by simpa using hk
    split <;> simp [get?, List.lookup_cons, hb]

end Cache
end HtmlCompose
