/-
# The text of data tells the data

Read from the left, the compact text of a value ends where the value ends: a quoted
text at its quote, a list and an object at their brackets, a word at its last letter.
Only a number ends by what comes after it, so the facts here are about texts that are
followed by no further character of a number.

So two values whose texts with what follows are the same are the same, and so is what
follows (`write_cut`).  The compact text is the part of a fingerprint that stands for
the data, and it stands for that data only (`print_injective`).
-/
import HtmlCompose.Proofs.Decimal.Reading

namespace HtmlCompose

namespace Json

open Decimal (isNumberChar)

/-! ### Quoted texts -/

/-- Different numbers below sixteen have different digits. -/
theorem hexDigit_inj {a b : Nat} (ha : a < 16) (hb : b < 16) (h : hexDigit a = hexDigit b) :
    a = b := by
  have key : ∀ a : Fin 16, ∀ b : Fin 16, hexDigit a = hexDigit b → a = b := by decide
  exact congrArg Fin.val (key ⟨a, ha⟩ ⟨b, hb⟩ h)

/-- The character that a letter after a backslash stands for. -/
def escaped (letter : Char) : Char :=
  if letter = 'b' then '\x08'
  else if letter = 't' then '\t'
  else if letter = 'n' then '\n'
  else if letter = 'f' then '\x0c'
  else if letter = 'r' then '\r'
  else letter

/-- A character is written as itself, as a backslash and a letter, or by its number. -/
theorem writeChar_cases (c : Char) :
    (writeChar c = [c] ∧ c ≠ '\\' ∧ c ≠ '"') ∨
      (∃ letter, writeChar c = ['\\', letter] ∧ letter ≠ 'u' ∧ escaped letter = c) ∨
      (writeChar c = ['\\', 'u', '0', '0', hexDigit (c.toNat / 16), hexDigit (c.toNat % 16)] ∧
        c.toNat < 0x20) := by
  unfold writeChar
  split_ifs with h₁ h₂ h₃ h₄ h₅ h₆ h₇ h₈
  · exact .inr (.inl ⟨'"', rfl, by decide, h₁.symm⟩)
  · exact .inr (.inl ⟨'\\', rfl, by decide, h₂.symm⟩)
  · exact .inr (.inl ⟨'b', rfl, by decide, h₃ ▸ rfl⟩)
  · exact .inr (.inl ⟨'t', rfl, by decide, h₄ ▸ rfl⟩)
  · exact .inr (.inl ⟨'n', rfl, by decide, h₅ ▸ rfl⟩)
  · exact .inr (.inl ⟨'f', rfl, by decide, h₆ ▸ rfl⟩)
  · exact .inr (.inl ⟨'r', rfl, by decide, h₇ ▸ rfl⟩)
  · exact .inr (.inr ⟨rfl, h₈⟩)
  · exact .inl ⟨rfl, h₂, h₁⟩

/-- One character is read from the left in one way only. -/
theorem writeChar_cut {c d : Char} {r s : List Char} (h : writeChar c ++ r = writeChar d ++ s) :
    c = d ∧ r = s := by
  rcases writeChar_cases c with ⟨hc, hc', -⟩ | ⟨a, hc, hc', ha⟩ | ⟨hc, hc'⟩ <;>
    rcases writeChar_cases d with ⟨hd, hd', -⟩ | ⟨b, hd, hd', hb⟩ | ⟨hd, hd'⟩ <;>
    simp only [hc, hd, List.cons_append, List.nil_append, List.cons.injEq, true_and] at h
  · exact h
  · exact absurd h.1 hc'
  · exact absurd h.1 hc'
  · exact absurd h.1.symm hd'
  · exact ⟨by rw [← ha, ← hb, h.1], h.2⟩
  · exact absurd h.1 hc'
  · exact absurd h.1.symm hd'
  · exact absurd h.1.symm hd'
  · have hhigh := hexDigit_inj (by omega) (by omega) h.1
    have hlow := hexDigit_inj (by omega) (by omega) h.2.1
    exact ⟨Char.toNat_inj.1 (by omega), h.2.2⟩

/-- No written character looks like the quote at the end. -/
theorem writeChar_ne_quote (c : Char) (r s : List Char) : writeChar c ++ r ≠ '"' :: s := by
  rcases writeChar_cases c with ⟨hc, -, hc'⟩ | ⟨a, hc, -, -⟩ | ⟨hc, -⟩ <;>
    simp only [hc, List.cons_append, ne_eq, List.cons.injEq, not_and]
  · exact fun h => absurd h hc'
  · exact fun h => absurd h (by decide)
  · exact fun h => absurd h (by decide)

/-- Written characters up to a quote are read from the left in one way only. -/
theorem flatMap_writeChar_cut {a b : List Char} {r s : List Char}
    (h : a.flatMap writeChar ++ '"' :: r = b.flatMap writeChar ++ '"' :: s) : a = b ∧ r = s := by
  induction a generalizing b with
  | nil =>
    cases b with
    | nil => exact ⟨rfl, (List.cons.inj h).2⟩
    | cons d b =>
      rw [List.flatMap_cons, List.append_assoc] at h
      exact absurd h.symm (writeChar_ne_quote d _ _)
  | cons c a ih =>
    cases b with
    | nil =>
      rw [List.flatMap_cons, List.append_assoc] at h
      exact absurd h (writeChar_ne_quote c _ _)
    | cons d b =>
      rw [List.flatMap_cons, List.flatMap_cons, List.append_assoc, List.append_assoc] at h
      obtain ⟨rfl, htail⟩ := writeChar_cut h
      obtain ⟨rfl, rfl⟩ := ih htail
      exact ⟨rfl, rfl⟩

/-- So is a quoted text. -/
theorem writeString_cut {a b : String} {r s : List Char}
    (h : writeString a ++ r = writeString b ++ s) : a = b ∧ r = s := by
  simp only [writeString, List.cons_append, List.append_assoc, List.nil_append,
    List.cons.injEq, true_and] at h
  obtain ⟨hchars, rfl⟩ := flatMap_writeChar_cut h
  exact ⟨String.toList_inj.1 hchars, rfl⟩

/-! ### Values -/

/-- A text does not go on with a character of a number. -/
def Ends (r : List Char) : Prop := ∀ c ∈ r.head?, isNumberChar c = false

/-- A number is read from the left in one way only, where it does not go on. -/
theorem Number.write_cut {n m : Number} {r s : List Char} (hr : Ends r) (hs : Ends s)
    (h : n.write ++ r = m.write ++ s) : n = m ∧ r = s := by
  have htake : ∀ (n : Number) {r : List Char}, Ends r →
      (n.write ++ r).takeWhile isNumberChar = n.write := by
    intro n r hr
    rw [List.takeWhile_append_of_pos n.write_isNumberChar]
    cases r with
    | nil => simp
    | cons c r => rw [List.takeWhile_cons_of_neg (by simp [hr c (by simp)]), List.append_nil]
  have hnm : n.write = m.write := by rw [← htake n hr, h, htake m hs]
  obtain rfl := Number.write_injective hnm
  exact ⟨rfl, List.append_cancel_left h⟩

/-- What a value is, told from how its text begins. -/
def Begins (c : Char) (v : Json) : Prop :=
  if c = 'n' then v = .null
  else if c = 't' then v = .bool true
  else if c = 'f' then v = .bool false
  else if c = '"' then ∃ s, v = .string s
  else if c = '[' then ∃ items, v = .array items
  else if c = '\x7b' then ∃ fields, v = .object fields
  else isNumberChar c = true ∧ ∃ n, v = .number n

/-- A text that begins like a number is that of a number. -/
theorem begins_of_isNumberChar {c : Char} (hc : isNumberChar c = true) (v : Json) :
    Begins c v ↔ ∃ n, v = .number n := by
  have hne : ∀ d, isNumberChar d = false → c ≠ d := by
    rintro d hd rfl
    simp [hd] at hc
  rw [Begins, if_neg (hne _ rfl), if_neg (hne _ rfl), if_neg (hne _ rfl), if_neg (hne _ rfl),
    if_neg (hne _ rfl), if_neg (hne _ rfl), and_iff_right hc]

/-- The first character of a text tells what the value is. -/
theorem begins {v : Json} {c : Char} {r s : List Char} (h : v.write ++ s = c :: r) :
    Begins c v := by
  match v with
  | .null => exact (List.cons.inj h).1 ▸ rfl
  | .bool true => exact (List.cons.inj h).1 ▸ rfl
  | .bool false => exact (List.cons.inj h).1 ▸ rfl
  | .number n =>
    obtain ⟨d, rest, hn⟩ := List.exists_cons_of_ne_nil n.write_ne_nil
    rw [write, hn] at h
    obtain rfl := (List.cons.inj h).1
    exact (begins_of_isNumberChar (n.write_isNumberChar d (by simp [hn])) _).2 ⟨n, rfl⟩
  | .string s => exact (List.cons.inj h).1 ▸ ⟨s, rfl⟩
  | .array [] => exact (List.cons.inj h).1 ▸ ⟨[], rfl⟩
  | .array (a :: as) => exact (List.cons.inj h).1 ▸ ⟨a :: as, rfl⟩
  | .object [] => exact (List.cons.inj h).1 ▸ ⟨[], rfl⟩
  | .object (a :: as) => exact (List.cons.inj h).1 ▸ ⟨a :: as, rfl⟩

/-- No value begins like the end of a list. -/
theorem write_ne_close (v : Json) (r s : List Char) : v.write ++ r ≠ ']' :: s :=
  fun h => Bool.false_ne_true (begins h).1

/-- What follows a value inside a text: nothing, or a comma or a closing bracket. -/
def Behind (r : List Char) : Prop := ∀ c ∈ r.head?, c = ',' ∨ c = ']' ∨ c = '\x7d'

/-- None of these goes on with a number. -/
theorem Behind.ends {r : List Char} (h : Behind r) : Ends r := by
  intro c hc
  rcases h c hc with rfl | rfl | rfl <;> rfl

/-- Behind an item of a list stands a comma or the bracket. -/
theorem behind_writeItems (vs : List Json) (r : List Char) : Behind (writeItems vs ++ r) := by
  cases vs <;> intro c hc <;> obtain rfl := Option.some.inj hc <;> simp

/-- Behind a field of an object stands a comma or the bracket. -/
theorem behind_writeFields (vs : List (String × Json)) (r : List Char) :
    Behind (writeFields vs ++ r) := by
  cases vs <;> intro c hc <;> obtain rfl := Option.some.inj hc <;> simp

mutual
/-- **A value is read from the left in one way only.** -/
theorem write_cut {v w : Json} {r s : List Char} (hr : Ends r) (hs : Ends s)
    (h : v.write ++ r = w.write ++ s) : v = w ∧ r = s := by
  match v with
  | .null =>
    obtain rfl : w = .null := begins h.symm
    exact ⟨rfl, List.append_cancel_left h⟩
  | .bool true =>
    obtain rfl : w = .bool true := begins h.symm
    exact ⟨rfl, List.append_cancel_left h⟩
  | .bool false =>
    obtain rfl : w = .bool false := begins h.symm
    exact ⟨rfl, List.append_cancel_left h⟩
  | .number n =>
    obtain ⟨c, rest, hn⟩ := List.exists_cons_of_ne_nil n.write_ne_nil
    have hw : Begins c w := begins (r := rest ++ r) (by rw [← h, write, hn, List.cons_append])
    obtain ⟨m, rfl⟩ := (begins_of_isNumberChar (n.write_isNumberChar c (by simp [hn])) w).1 hw
    obtain ⟨rfl, rfl⟩ := Number.write_cut hr hs h
    exact ⟨rfl, rfl⟩
  | .string a =>
    obtain ⟨b, rfl⟩ : ∃ b, w = .string b := begins h.symm
    obtain ⟨rfl, rfl⟩ := writeString_cut h
    exact ⟨rfl, rfl⟩
  | .array [] =>
    obtain ⟨bs, rfl⟩ : ∃ bs, w = .array bs := begins h.symm
    match bs with
    | [] => exact ⟨rfl, List.append_cancel_left h⟩
    | b :: bs =>
      simp only [write, List.cons_append, List.append_assoc, List.cons.injEq, true_and] at h
      exact absurd h.symm (write_ne_close b _ _)
  | .array (a :: as) =>
    obtain ⟨bs, rfl⟩ : ∃ bs, w = .array bs := begins h.symm
    match bs with
    | [] =>
      simp only [write, List.cons_append, List.append_assoc, List.cons.injEq, true_and] at h
      exact absurd h (write_ne_close a _ _)
    | b :: bs =>
      simp only [write, List.cons_append, List.append_assoc, List.cons.injEq, true_and] at h
      obtain ⟨rfl, htail⟩ := write_cut (behind_writeItems as r).ends (behind_writeItems bs s).ends h
      obtain ⟨rfl, rfl⟩ := writeItems_cut htail
      exact ⟨rfl, rfl⟩
  | .object fields =>
    obtain ⟨fields', rfl⟩ : ∃ fields', w = .object fields' := by
      cases fields <;> exact begins h.symm
    obtain ⟨rfl, rfl⟩ := object_cut h
    exact ⟨rfl, rfl⟩

/-- An object ends at its own bracket, whatever comes after it. -/
theorem object_cut {vs ws : List (String × Json)} {r s : List Char}
    (h : (object vs).write ++ r = (object ws).write ++ s) : vs = ws ∧ r = s := by
  match vs, ws with
  | [], [] => exact ⟨rfl, List.append_cancel_left h⟩
  | [], (l, b) :: bs => simp [write, writeString] at h
  | (k, a) :: as, [] => simp [write, writeString] at h
  | (k, a) :: as, (l, b) :: bs =>
    simp only [write, List.cons_append, List.append_assoc, List.cons.injEq, true_and] at h
    obtain ⟨rfl, hvalue⟩ := writeString_cut h
    obtain ⟨rfl, htail⟩ := write_cut (behind_writeFields as r).ends (behind_writeFields bs s).ends
      (List.cons.inj hvalue).2
    obtain ⟨rfl, rfl⟩ := writeFields_cut htail
    exact ⟨rfl, rfl⟩

/-- The items of a list end at its bracket. -/
theorem writeItems_cut {vs ws : List Json} {r s : List Char}
    (h : writeItems vs ++ r = writeItems ws ++ s) : vs = ws ∧ r = s := by
  match vs, ws with
  | [], [] => exact ⟨rfl, (List.cons.inj h).2⟩
  | [], b :: bs => simp [writeItems] at h
  | a :: as, [] => simp [writeItems] at h
  | a :: as, b :: bs =>
    simp only [writeItems, List.cons_append, List.append_assoc, List.cons.injEq, true_and] at h
    obtain ⟨rfl, htail⟩ := write_cut (behind_writeItems as r).ends (behind_writeItems bs s).ends h
    obtain ⟨rfl, rfl⟩ := writeItems_cut htail
    exact ⟨rfl, rfl⟩

/-- The fields of an object end at its bracket. -/
theorem writeFields_cut {vs ws : List (String × Json)} {r s : List Char}
    (h : writeFields vs ++ r = writeFields ws ++ s) : vs = ws ∧ r = s := by
  match vs, ws with
  | [], [] => exact ⟨rfl, (List.cons.inj h).2⟩
  | [], (l, b) :: bs => simp [writeFields] at h
  | (k, a) :: as, [] => simp [writeFields] at h
  | (k, a) :: as, (l, b) :: bs =>
    simp only [writeFields, List.cons_append, List.append_assoc, List.cons.injEq, true_and] at h
    obtain ⟨rfl, hvalue⟩ := writeString_cut h
    obtain ⟨rfl, htail⟩ := write_cut (behind_writeFields as r).ends (behind_writeFields bs s).ends
      (List.cons.inj hvalue).2
    obtain ⟨rfl, rfl⟩ := writeFields_cut htail
    exact ⟨rfl, rfl⟩
end

/-- **The compact text of a value is that of no other value.** -/
theorem print_injective : Function.Injective print := by
  intro v w h
  have hends : Ends [] := fun c hc => absurd hc (by simp)
  exact (write_cut hends hends (congrArg (· ++ []) (String.ofList_injective h))).1

end Json
end HtmlCompose
