/-
# What is written as JSON is read back

A value without doubles is read back from its compact text as it is (`read?_print`), as long
as reading can take it:

| part | can be read back if |
| --- | --- |
| whole number | it is a signed or an unsigned one of 64 bits |
| text | always |
| object | its keys are in order, as those of a record are |
| list or object | at most 127 are nested in one another |

Reading goes from the left and has a text behind the value (`Behind`).  A value takes at most
as many steps as its text has characters.
-/
import HtmlCompose.Data.Json.Reader
import HtmlCompose.Proofs.Data.Records
import HtmlCompose.Proofs.Data.Text

namespace HtmlCompose

namespace Json

/-! ### Values that can be read back -/

mutual
/-- Whole numbers are of 64 bits, there are no other numbers, and objects are records. -/
def Whole : Json → Prop
  | .null | .bool _ | .string _ => True
  | .number (.int n) => -2 ^ 63 ≤ n ∧ n < 2 ^ 64
  | .number (.double _) => False
  | .array items => WholeItems items
  | .object fields => (fields.map Prod.fst).Pairwise (· < ·) ∧ WholeFields fields

def WholeItems : List Json → Prop
  | [] => True
  | v :: vs => v.Whole ∧ WholeItems vs

def WholeFields : List (String × Json) → Prop
  | [] => True
  | (_, v) :: fields => v.Whole ∧ WholeFields fields
end

mutual
/-- How many lists and objects are nested in one another. -/
def nesting : Json → Nat
  | .array items => nestingItems items + 1
  | .object fields => nestingFields fields + 1
  | _ => 0

def nestingItems : List Json → Nat
  | [] => 0
  | v :: vs => max v.nesting (nestingItems vs)

def nestingFields : List (String × Json) → Nat
  | [] => 0
  | (_, v) :: fields => max v.nesting (nestingFields fields)
end

namespace Reader

/-! ### Texts -/

/-- A hexadecimal digit is read as its value. -/
theorem digitOf_hexDigit : ∀ n : Fin 16, Text.digitOf 16 (hexDigit n) = some n.val := by decide

/-- One written character is read. -/
theorem stringBody_writeChar (n : Nat) (c : Char) (r : List Char) :
    stringBody true (n + 1) (writeChar c ++ r) =
      (stringBody true n r).map fun found => (c :: found.1, found.2) := by
  have hmap : ∀ x : Option (List Char × List Char),
      (x.bind fun found => some (c :: found.1, found.2)) =
        x.map fun found => (c :: found.1, found.2) := by
    intro x
    cases x <;> rfl
  unfold writeChar
  split_ifs with h₁ h₂ h₃ h₄ h₅ h₆ h₇ h₈
  · subst h₁; exact hmap _
  · subst h₂; exact hmap _
  · subst h₃; exact hmap _
  · subst h₄; exact hmap _
  · subst h₅; exact hmap _
  · subst h₆; exact hmap _
  · subst h₇; exact hmap _
  · have hhigh := digitOf_hexDigit ⟨c.toNat / 16, by omega⟩
    have hlow := digitOf_hexDigit ⟨c.toNat % 16, by omega⟩
    have hvalue : ((0 * 16 + 0) * 16 + c.toNat / 16) * 16 + c.toNat % 16 = c.toNat := by omega
    have hzero : Text.digitOf 16 '0' = some 0 := by decide
    have hread : numericEscape true ('0' :: '0' :: hexDigit (c.toNat / 16) ::
        hexDigit (c.toNat % 16) :: r) = some (c, r) := by
      simp only [numericEscape, hex4, hzero, hhigh, hlow, Option.bind_eq_bind, Option.bind_some,
        hvalue]
      simp [show c.toNat < 0xD800 by omega]
    show ((numericEscape true ('0' :: '0' :: hexDigit (c.toNat / 16) ::
      hexDigit (c.toNat % 16) :: r)).bind fun found =>
        (stringBody true n found.2).bind fun more => some (found.1 :: more.1, more.2)) = _
    rw [hread]
    exact hmap _
  · rw [List.singleton_append, stringBody.eq_def]
    simp only [if_neg h₁, if_neg h₂, if_neg h₈]
    exact hmap _

/-- **Written characters are read up to the quote behind them.** -/
theorem stringBody_write (cs r : List Char) {n : Nat} (hn : cs.length < n) :
    stringBody true n (cs.flatMap writeChar ++ '"' :: r) = some (cs, r) := by
  induction cs generalizing n with
  | nil =>
    obtain ⟨n, rfl⟩ : ∃ k, n = k + 1 := ⟨n - 1, by omega⟩
    rfl
  | cons c cs ih =>
    rw [List.length_cons] at hn
    obtain ⟨n, rfl⟩ : ∃ k, n = k + 1 := ⟨n - 1, by omega⟩
    rw [List.flatMap_cons, List.append_assoc, stringBody_writeChar, ih (by omega)]
    rfl

/-- Every character is written with one at least. -/
theorem length_le_flatMap_writeChar (cs : List Char) :
    cs.length ≤ (cs.flatMap writeChar).length := by
  induction cs with
  | nil => exact Nat.le_refl 0
  | cons c cs ih =>
    have hc : 0 < (writeChar c).length := by
      rcases writeChar_cases c with ⟨hc, -⟩ | ⟨_, hc, -⟩ | ⟨hc, -⟩ <;> rw [hc] <;>
        exact Nat.succ_pos _
    rw [List.flatMap_cons, List.length_append, List.length_cons]
    omega

/-- **A quoted text is read back.** -/
theorem string_write (s : String) (r : List Char) :
    string true (s.toList.flatMap writeChar ++ '"' :: r) = some (s, r) := by
  have hlength := length_le_flatMap_writeChar s.toList
  rw [string, stringBody_write _ _ (by rw [List.length_append]; omega), Option.map_some]
  simp only [String.ofList_toList]

/-! ### Whole numbers -/

/-- Digits behind a number make it no smaller. -/
theorem le_ofDigitChars (cs : List Char) (n : Nat) : n ≤ Nat.ofDigitChars 10 cs n := by
  rw [Nat.ofDigitChars_eq_ofDigitChars_zero]
  exact (Nat.le_mul_of_pos_left n (Nat.pow_pos (by decide))).trans (Nat.le_add_right _ _)

/-- Digits are kept as long as what they denote fits 64 bits. -/
theorem wholeDigits_eq (cs : List Char) {n : Nat} (h : Nat.ofDigitChars 10 cs n < 2 ^ 64) :
    wholeDigits ⟨n, 0⟩ cs = ⟨Nat.ofDigitChars 10 cs n, 0⟩ := by
  induction cs generalizing n with
  | nil => rw [wholeDigits, Nat.ofDigitChars_nil]
  | cons c cs ih =>
    rw [Nat.ofDigitChars_cons, Nat.mul_comm] at h ⊢
    have hnext : n * 10 + (c.toNat - '0'.toNat) < UInt64.size := (le_ofDigitChars cs _).trans_lt h
    rw [wholeDigits]
    simp only [true_and, if_pos hnext]
    exact ih h

/-- A number does not start with a zero unless it is zero. -/
theorem head?_toDigits {n : Nat} (hn : 0 < n) : (Nat.toDigits 10 n).head? ≠ some '0' := by
  induction n using Nat.strong_induction_on with
  | _ n ih =>
    rw [Nat.toDigits_eq_if (by decide)]
    split_ifs with hlt
    · have hdigit : ∀ k : Fin 10, 0 < k.val → [Nat.digitChar k].head? ≠ some '0' := by decide
      exact hdigit ⟨n, hlt⟩ hn
    · obtain ⟨c, cs, hcs⟩ :=
        List.exists_cons_of_ne_nil (Nat.toDigits_ne_nil (n := n / 10) (b := 10))
      have hhead := ih (n / 10) (by omega) (by omega)
      rw [hcs] at hhead ⊢
      exact hhead

/-- Digits are read up to what follows them. -/
theorem unsigned_digits {ds r : List Char} (hds : Decimal.Digits ds) (hne : ds ≠ [])
    (hzero : ds.head? = some '0' → ds.length ≤ 1) (hr : Behind r) (negative : Bool) :
    unsigned true negative (ds ++ r) = (wholeNumber? negative ds).map (·, r) := by
  have hstop : ∀ c ∈ r.head?, c.isDigit = false := fun c hc => by
    rcases hr c hc with rfl | rfl | rfl <;> rfl
  have hspan : (ds ++ r).takeWhile Char.isDigit = ds ∧ (ds ++ r).dropWhile Char.isDigit = r := by
    rw [List.takeWhile_append_of_pos hds, List.dropWhile_append_of_pos hds]
    cases r with
    | nil => simp
    | cons c r =>
      have hc := hstop c rfl
      simp [hc]
  have hfraction : fraction r = some ([], r) := by
    unfold fraction
    split
    · exact absurd (hr _ rfl) (by decide)
    · rfl
  have hexponent : exponent r = some (none, r) := by
    unfold exponent
    split
    · exact absurd (hr _ rfl) (by decide)
    · exact absurd (hr _ rfl) (by decide)
    · rfl
  rw [unsigned]
  simp only [hspan.1, hspan.2, List.isEmpty_iff, if_neg hne]
  rw [if_neg fun h => absurd h.2 (Nat.not_lt.2 (hzero h.1))]
  simp only [hfraction, hexponent, Option.bind_eq_bind, Option.bind_some, Bool.not_true,
    Bool.false_eq_true, if_false]
  rw [if_pos ⟨trivial, rfl⟩]
  cases wholeNumber? negative ds <;> rfl

/-- The numeral of a number is read as the number, with either sign, as far as 64 bits go. -/
theorem wholeNumber?_toDigits {n : Nat} :
    (n < 2 ^ 64 → wholeNumber? false (Nat.toDigits 10 n) = some (.int n)) ∧
      (0 < n → n ≤ 2 ^ 63 → wholeNumber? true (Nat.toDigits 10 n) = some (.int (-n))) := by
  have hread : n < 2 ^ 64 → wholeDigits ⟨0, 0⟩ (Nat.toDigits 10 n) = ⟨n, 0⟩ := fun hn => by
    have hdigits := wholeDigits_eq (Nat.toDigits 10 n) (n := 0)
    rw [Nat.ofDigitChars_ten_toDigits] at hdigits
    exact hdigits hn
  refine ⟨fun hn => ?_, fun hpos hn => ?_⟩
  · rw [wholeNumber?, hread hn]
    rfl
  · rw [wholeNumber?, hread (by omega)]
    simp only [Bool.not_true, Bool.false_eq_true, and_false, if_false, true_and]
    rw [if_pos ⟨hpos, hn⟩]

/-- **A whole number of 64 bits is read back.** -/
theorem number_write {i : ℤ} (hi : -2 ^ 63 ≤ i ∧ i < 2 ^ 64) {r : List Char} (hr : Behind r) :
    number true ((Number.int i).write ++ r) = some (.int i, r) := by
  have hzero : ∀ n, (Nat.toDigits 10 n).head? = some '0' → (Nat.toDigits 10 n).length ≤ 1 := by
    intro n hhead
    rcases Nat.eq_zero_or_pos n with rfl | hn
    · exact Nat.le_refl 1
    · exact absurd hhead (head?_toDigits hn)
  have hdigits := fun negative => unsigned_digits (Decimal.digits_toDigits i.natAbs)
    Nat.toDigits_ne_nil (hzero _) hr negative
  obtain ⟨hpos, hneg⟩ := @wholeNumber?_toDigits i.natAbs
  rw [Number.write, Decimal.toList_toString_int]
  split_ifs with h
  · rw [List.nil_append]
    have hplain : number true (Nat.toDigits 10 i.natAbs ++ r) =
        unsigned true false (Nat.toDigits 10 i.natAbs ++ r) := by
      unfold number
      split
      · next rest heq =>
        obtain ⟨c, cs, hcs⟩ := List.exists_cons_of_ne_nil
          (Nat.toDigits_ne_nil (n := i.natAbs) (b := 10))
        have hc := Decimal.digits_toDigits i.natAbs c (hcs ▸ List.mem_cons_self)
        rw [hcs] at heq
        rw [(List.cons.inj heq).1] at hc
        exact absurd hc (by decide)
      · rfl
    rw [hplain, hdigits, hpos (by omega), Option.map_some, show (i.natAbs : ℤ) = i by omega]
  · rw [List.singleton_append, List.cons_append, number, hdigits, hneg (by omega) (by omega),
      Option.map_some, show -(i.natAbs : ℤ) = i by omega]

/-! ### Values -/

/-- What the text of a value starts with. -/
theorem exists_write (v : Json) : ∃ c s, v.write = c :: s ∧ isGap c = false := by
  match v with
  | .null => exact ⟨_, _, rfl, rfl⟩
  | .bool true => exact ⟨_, _, rfl, rfl⟩
  | .bool false => exact ⟨_, _, rfl, rfl⟩
  | .number n =>
    obtain ⟨c, s, hn⟩ := List.exists_cons_of_ne_nil n.write_ne_nil
    refine ⟨c, s, hn, ?_⟩
    have hc := n.write_isNumberChar c (hn ▸ List.mem_cons_self)
    rw [isGap]
    by_contra hgap
    simp only [Bool.not_eq_false, Bool.or_eq_true, beq_iff_eq] at hgap
    rcases hgap with ((rfl | rfl) | rfl) | rfl <;> exact absurd hc (by decide)
  | .string s => exact ⟨_, _, rfl, rfl⟩
  | .array [] => exact ⟨_, _, rfl, rfl⟩
  | .array (_ :: _) => exact ⟨_, _, rfl, rfl⟩
  | .object [] => exact ⟨_, _, rfl, rfl⟩
  | .object (_ :: _) => exact ⟨_, _, rfl, rfl⟩

/-- A value is not written with a gap in front of it. -/
theorem skipGaps_write (v : Json) (r : List Char) : skipGaps (v.write ++ r) = v.write ++ r := by
  obtain ⟨c, s, hv, hc⟩ := exists_write v
  rw [hv, List.cons_append, skipGaps, List.dropWhile_cons_of_neg (by simp [hc])]

/-- A value is written with a character at least. -/
theorem length_write_pos (v : Json) : 0 < v.write.length := by
  obtain ⟨c, s, hv, -⟩ := exists_write v
  rw [hv]
  exact Nat.succ_pos _

/-- A text that is read as a number is read as a value. -/
theorem value_number {i : ℤ} {n depth : Nat} {r : List Char}
    (h : number true ((Number.int i).write ++ r) = some (.int i, r)) :
    value true (n + 1) depth ((Number.int i).write ++ r) = some (.number (.int i), r) := by
  have hskip := skipGaps_write (.number (.int i)) r
  rw [write] at hskip
  obtain ⟨c, s, hs⟩ := List.exists_cons_of_ne_nil (Number.int i).write_ne_nil
  have hc := (Number.int i).write_isNumberChar c (hs ▸ List.mem_cons_self)
  rw [hs] at hskip h ⊢
  rw [value, hskip]
  split <;> rename_i heq <;> first
    | exact absurd ((List.cons.inj heq).1 ▸ hc) (by decide)
    | rw [h]; rfl

/-- A quoted text is read as a value. -/
theorem value_string (n depth : Nat) (s : String) (r : List Char) :
    value true (n + 1) depth (writeString s ++ r) = some (.string s, r) := by
  rw [writeString, List.cons_append, List.cons_append, List.append_assoc]
  show (string true (s.toList.flatMap writeChar ++ '"' :: r)).map _ = _
  rw [string_write]
  rfl

/-- An opening bracket is followed by the items of a list, unless the list is empty. -/
theorem value_array {n depth : Nat} (hdepth : 0 < depth) {s : List Char}
    (hs : ∀ r, skipGaps s ≠ ']' :: r) :
    value true (n + 1) depth ('[' :: s) =
      (items true n (depth - 1) s).map fun found => (.array found.1, found.2) := by
  rw [value]
  show (if true ∧ depth = 0 then none else _) = _
  rw [if_neg fun h => hdepth.ne' h.2]
  split
  · next r heq => exact absurd heq (hs r)
  · rfl

/-- An opening brace is followed by the members of an object, unless the object is empty. -/
theorem value_object {n depth : Nat} (hdepth : 0 < depth) {s : List Char}
    (hs : ∀ r, skipGaps s ≠ '\x7d' :: r) :
    value true (n + 1) depth ('\x7b' :: s) =
      (members true (fun _ => true) n (depth - 1) s).map fun found =>
        (.object (Record.ofList found.1), found.2) := by
  rw [value]
  show (if true ∧ depth = 0 then none else _) = _
  rw [if_neg fun h => hdepth.ne' h.2]
  split
  · next r heq => exact absurd heq (hs r)
  · rfl

/-- The items of a list without the opening bracket. -/
def writeList : List Json → List Char
  | [] => []
  | v :: vs => v.write ++ writeItems vs

/-- The entries of an object without the opening brace. -/
def writeEntries : List (String × Json) → List Char
  | [] => []
  | (key, v) :: fields => writeString key ++ ':' :: (v.write ++ writeFields fields)

/-- Each entry of an object makes its text longer than the value and the rest. -/
theorem length_writeEntries (key : String) (v : Json) (fields : List (String × Json)) :
    v.write.length + (writeFields fields).length < (writeEntries ((key, v) :: fields)).length := by
  rw [writeEntries, List.length_append, List.length_cons, List.length_append]
  omega

/-- The first entry is read if its value is, and what stands behind it tells how to go on. -/
theorem members_first (key : String) {v : Json} {fields : List (String × Json)} {n depth : Nat}
    {r : List Char} (hv : value true n depth (v.write ++ (writeFields fields ++ r)) =
      some (v, writeFields fields ++ r)) :
    members true (fun _ => true) (n + 1) depth (writeEntries ((key, v) :: fields) ++ r) =
      match skipGaps (writeFields fields ++ r) with
      | '\x7d' :: rest => some ([(key, v)], rest)
      | ',' :: rest => (members true (fun _ => true) n depth rest).bind fun found =>
          some ((key, v) :: found.1, found.2)
      | _ => none := by
  have hentry : writeEntries ((key, v) :: fields) ++ r = '"' :: (key.toList.flatMap writeChar ++
      '"' :: ':' :: (v.write ++ (writeFields fields ++ r))) := by
    simp only [writeEntries, writeString, List.cons_append, List.append_assoc, List.nil_append]
  rw [hentry, members]
  show ((string true _).bind fun found => _) = _
  rw [string_write]
  show ((value true n depth (v.write ++ (writeFields fields ++ r))).bind fun found => _) = _
  rw [hv]
  rfl

mutual
/-- **A value is read back, up to what follows it.** -/
theorem value_write {v : Json} (hv : v.Whole) {n depth : Nat} (hn : v.write.length ≤ n)
    (hdepth : v.nesting ≤ depth) {r : List Char} (hr : Behind r) :
    value true n depth (v.write ++ r) = some (v, r) := by
  have hpos := length_write_pos v
  match v, n with
  | v, 0 => omega
  | .null, n + 1 => rfl
  | .bool true, n + 1 => rfl
  | .bool false, n + 1 => rfl
  | .number (.int i), n + 1 => exact value_number (number_write hv hr)
  | .number (.double x), n + 1 => exact hv.elim
  | .string s, n + 1 => exact value_string n depth s r
  | .array [], n + 1 =>
    obtain ⟨depth, rfl⟩ : ∃ k, depth = k + 1 := ⟨depth - 1, by rw [nesting] at hdepth; omega⟩
    rfl
  | .array (w :: ws), n + 1 =>
    rw [nesting] at hdepth
    rw [write, List.length_cons] at hn
    have hitems : items true n (depth - 1) (writeList (w :: ws) ++ r) = some (w :: ws, r) :=
      items_write hv (List.cons_ne_nil w ws) (Nat.le_of_succ_le_succ hn) (by omega)
    rw [writeList] at hitems
    rw [write, List.cons_append, value_array (by omega), hitems]
    · rfl
    · intro s
      rw [List.append_assoc, skipGaps_write]
      exact write_ne_close w _ s
  | .object [], n + 1 =>
    obtain ⟨depth, rfl⟩ : ∃ k, depth = k + 1 := ⟨depth - 1, by rw [nesting] at hdepth; omega⟩
    rfl
  | .object ((key, w) :: fields), n + 1 =>
    rw [nesting] at hdepth
    rw [write, List.length_cons] at hn
    have hmembers : members true (fun _ => true) n (depth - 1)
        (writeEntries ((key, w) :: fields) ++ r) = some ((key, w) :: fields, r) :=
      members_write hv.2 (List.cons_ne_nil (key, w) fields) (Nat.le_of_succ_le_succ hn) (by omega)
    rw [writeEntries] at hmembers
    rw [write, List.cons_append, value_object (by omega), hmembers]
    · rw [Option.map_some, Record.ofList_eq_self hv.1]
    · intro s h
      cases h

/-- Items in a row are read back. -/
theorem items_write {vs : List Json} (hvs : WholeItems vs) (hne : vs ≠ []) {n depth : Nat}
    (hn : (writeList vs).length ≤ n) (hdepth : nestingItems vs ≤ depth) {r : List Char} :
    items true n depth (writeList vs ++ r) = some (vs, r) := by
  match vs, n with
  | [], _ => exact absurd rfl hne
  | v :: vs, 0 =>
    have hpos := length_write_pos v
    rw [writeList, List.length_append] at hn
    omega
  | [v], n + 1 =>
    rw [writeList, writeItems, List.length_append, List.length_singleton] at hn
    rw [nestingItems] at hdepth
    rw [writeList, items, List.append_assoc,
      value_write hvs.1 (by omega) (by omega) (behind_writeItems [] r)]
    rfl
  | v :: v' :: vs, n + 1 =>
    have hpos := length_write_pos v
    rw [writeList, writeItems, List.length_append, List.length_cons] at hn
    rw [nestingItems] at hdepth
    have htail : items true n depth (writeList (v' :: vs) ++ r) = some (v' :: vs, r) :=
      items_write hvs.2 (List.cons_ne_nil v' vs) (by rw [writeList]; omega) (by omega)
    rw [writeList, items, List.append_assoc,
      value_write hvs.1 (by omega) (by omega) (behind_writeItems (v' :: vs) r), writeItems,
      List.cons_append]
    show ((items true n depth (writeList (v' :: vs) ++ r)).bind fun found => _) = _
    rw [htail]
    rfl

/-- Members in a row are read back. -/
theorem members_write {fields : List (String × Json)} (hfields : WholeFields fields)
    (hne : fields ≠ []) {n depth : Nat} (hn : (writeEntries fields).length ≤ n)
    (hdepth : nestingFields fields ≤ depth) {r : List Char} :
    members true (fun _ => true) n depth (writeEntries fields ++ r) = some (fields, r) := by
  match fields, n with
  | [], _ => exact absurd rfl hne
  | (key, v) :: fields, 0 =>
    have hlength := length_writeEntries key v fields
    omega
  | [(key, v)], n + 1 =>
    have hlength := length_writeEntries key v []
    rw [writeFields, List.length_singleton] at hlength
    rw [nestingFields] at hdepth
    rw [members_first key (value_write hfields.1 (by omega) (by omega) (behind_writeFields [] r))]
    rfl
  | (key, v) :: (key', v') :: fields, n + 1 =>
    have hlength := length_writeEntries key v ((key', v') :: fields)
    rw [writeFields, List.length_cons] at hlength
    rw [nestingFields] at hdepth
    have htail : members true (fun _ => true) n depth
        (writeEntries ((key', v') :: fields) ++ r) = some ((key', v') :: fields, r) :=
      members_write hfields.2 (List.cons_ne_nil (key', v') fields) (by rw [writeEntries]; omega)
        (by omega)
    rw [members_first key (value_write hfields.1 (by omega) (by omega) (behind_writeFields _ r)),
      writeFields, List.cons_append]
    show ((members true (fun _ => true) n depth (writeEntries ((key', v') :: fields) ++ r)).bind
      fun found => _) = _
    rw [htail]
    rfl
end

end Reader

/-- The value is whole, and at most 127 lists and objects are nested in one another. -/
def Readable (v : Json) : Prop := v.Whole ∧ v.nesting ≤ 127

/-- **A value without doubles is read back from its text.** -/
theorem read?_print {v : Json} (hv : v.Readable) : read? v.print = some v := by
  have hsteps : v.write.length ≤ Reader.steps v.write := by
    rw [Reader.steps]
    omega
  have hvalue : Reader.value true (Reader.steps v.write) Reader.maxNesting (v.write ++ []) =
      some (v, []) := Reader.value_write hv.1 hsteps hv.2 fun c hc => by cases hc
  rw [List.append_nil] at hvalue
  rw [read?, print, String.toList_ofList, hvalue]
  rfl

end Json
end HtmlCompose
