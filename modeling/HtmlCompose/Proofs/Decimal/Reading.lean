/-
# The text of a number tells the number

Read from the left, the text of a decimal is a whole part, a fraction after a point,
and a power of ten after an `e`:

```text
1234567.5     whole 1234567, fraction 5, scale 0
0.00123       whole 0, fraction 00123, scale 0
1.25e-7       whole 1, fraction 25, scale -7
```

`textValue` is the number that these three denote.  Every layout of a decimal denotes
the decimal (`textValue_write`), so with the shortest decimals of doubles apart
(`magnitude_eq_of_shortest`) the texts of doubles are apart too, signs included.  A
double always has a point or an `e` and a whole number never has one, so the texts of
all numbers are apart (`Number.write_injective`).
-/
import HtmlCompose.Data.Json.Printer
import HtmlCompose.Proofs.Decimal.Interval

namespace HtmlCompose

namespace Decimal

/-! ### Reading -/

/-- What stands before the first occurrence of a character. -/
def upTo (c : Char) (s : List Char) : List Char := s.takeWhile (· != c)

/-- What stands after the first occurrence of a character. -/
def beyond (c : Char) (s : List Char) : List Char := (s.dropWhile (· != c)).drop 1

/-- The whole number that digits after a sign denote. -/
def signed : List Char → ℤ
  | '-' :: digits => -(Nat.ofDigitChars 10 digits 0 : ℤ)
  | '+' :: digits => Nat.ofDigitChars 10 digits 0
  | digits => Nat.ofDigitChars 10 digits 0

/-- The number that a text without a sign denotes. -/
def textValue (s : List Char) : ℚ :=
  Nat.ofDigitChars 10 (upTo '.' (upTo 'e' s) ++ beyond '.' (upTo 'e' s)) 0 *
    10 ^ (signed (beyond 'e' s) - (beyond '.' (upTo 'e' s)).length)

/-- All characters of a text differ from one that is not in it. -/
theorem ne_of_not_mem {c : Char} {s : List Char} (h : c ∉ s) : ∀ a ∈ s, (a != c) = true := by
  intro a ha
  rw [bne_iff_ne]
  rintro rfl
  exact h ha

/-- A text is all before a character that is not in it. -/
theorem upTo_of_not_mem {c : Char} {s : List Char} (h : c ∉ s) : upTo c s = s :=
  List.takeWhile_eq_self_iff.2 (ne_of_not_mem h)

/-- Nothing stands behind a character that is not there. -/
theorem beyond_of_not_mem {c : Char} {s : List Char} (h : c ∉ s) : beyond c s = [] := by
  rw [beyond, List.dropWhile_eq_nil_iff.2 (ne_of_not_mem h), List.drop_nil]

/-- A text without a character is what stands before it. -/
theorem upTo_append {c : Char} {s : List Char} (h : c ∉ s) (t : List Char) :
    upTo c (s ++ c :: t) = s := by
  rw [upTo, List.takeWhile_append_of_pos (ne_of_not_mem h), List.takeWhile_cons_of_neg (by simp),
    List.append_nil]

/-- What stands behind the first occurrence is the rest. -/
theorem beyond_append {c : Char} {s : List Char} (h : c ∉ s) (t : List Char) :
    beyond c (s ++ c :: t) = t := by
  rw [beyond, List.dropWhile_append_of_pos (ne_of_not_mem h), List.dropWhile_cons_of_neg (by simp)]
  rfl

/-! ### Digits -/

/-- All characters of a text are decimal digits. -/
def Digits (s : List Char) : Prop := ∀ c ∈ s, c.isDigit = true

/-- Digits hold no other characters. -/
theorem Digits.not_mem {s : List Char} (h : Digits s) {c : Char} (hc : c.isDigit = false) :
    c ∉ s := fun hcs => by simp [h c hcs] at hc

/-- Digits in a row are digits. -/
theorem Digits.append {s t : List Char} (hs : Digits s) (ht : Digits t) : Digits (s ++ t) :=
  fun c hc => (List.mem_append.1 hc).elim (hs c) (ht c)

theorem Digits.zeros (n : Nat) : Digits (List.replicate n '0') :=
  fun c hc => by rw [(List.mem_replicate.1 hc).2]; rfl

theorem Digits.zero : Digits ['0'] := .zeros 1

/-- The decimal numeral of a number is made of digits. -/
theorem digits_toDigits (n : Nat) : Digits (Nat.toDigits 10 n) :=
  fun _ hc => Nat.isDigit_of_mem_toDigits (by decide) (by decide) hc

/-- A number is written as its numeral. -/
theorem toList_toString (n : Nat) : (toString n).toList = Nat.toDigits 10 n := by
  rw [Nat.toString_eq_repr, Nat.toList_repr]

/-- A whole number is written as a sign, if it is negative, and the numeral of its absolute
value. -/
theorem toList_toString_int (i : ℤ) :
    (toString i).toList = (if 0 ≤ i then [] else ['-']) ++ Nat.toDigits 10 i.natAbs := by
  rw [Int.toString_eq_repr, Int.repr_eq_if]
  split_ifs with h
  · rw [Nat.toList_repr, List.nil_append, show i.toNat = i.natAbs by omega]
  · rw [String.toList_append, Nat.toList_repr, show (-i).toNat = i.natAbs by omega]
    rfl

/-- Digits without a sign denote what they denote as a numeral. -/
theorem signed_of_digits {s : List Char} (h : Digits s) : signed s = Nat.ofDigitChars 10 s 0 := by
  unfold signed
  split
  · exact absurd (h '-' (by simp)) (by decide)
  · exact absurd (h '+' (by simp)) (by decide)
  · rfl

/-- The text of a whole number denotes it. -/
theorem signed_toString (i : ℤ) : signed (toString i).toList = i := by
  rw [toList_toString_int]
  split_ifs with h
  · rw [List.nil_append, signed_of_digits (digits_toDigits _), Nat.ofDigitChars_ten_toDigits]
    omega
  · rw [List.singleton_append, signed, Nat.ofDigitChars_ten_toDigits]
    omega

/-- A plus sign changes nothing. -/
theorem signed_plus_toString {i : ℤ} (h : 0 ≤ i) : signed ('+' :: (toString i).toList) = i := by
  rw [toList_toString_int, if_pos h, List.nil_append, signed, Nat.ofDigitChars_ten_toDigits]
  omega

/-- A whole part and a fraction without a scale. -/
theorem textValue_point {whole fraction : List Char} (hw : Digits whole) (hf : Digits fraction) :
    textValue (whole ++ '.' :: fraction) =
      Nat.ofDigitChars 10 (whole ++ fraction) 0 * 10 ^ (-(fraction.length : ℤ)) := by
  have he : 'e' ∉ whole ++ '.' :: fraction := by
    simp [hw.not_mem (c := 'e') rfl, hf.not_mem (c := 'e') rfl]
  rw [textValue, upTo_of_not_mem he, beyond_of_not_mem he, upTo_append (hw.not_mem rfl),
    beyond_append (hw.not_mem rfl)]
  simp [signed]

/-- A whole part, a fraction and a scale. -/
theorem textValue_scale {whole fraction scale : List Char} (hw : Digits whole)
    (hf : Digits fraction) :
    textValue (whole ++ '.' :: fraction ++ 'e' :: scale) =
      Nat.ofDigitChars 10 (whole ++ fraction) 0 * 10 ^ (signed scale - fraction.length) := by
  have he : 'e' ∉ whole ++ '.' :: fraction := by
    simp [hw.not_mem (c := 'e') rfl, hf.not_mem (c := 'e') rfl]
  rw [textValue, upTo_append he, beyond_append he, upTo_append (hw.not_mem rfl),
    beyond_append (hw.not_mem rfl)]

/-- A whole part and a scale. -/
theorem textValue_whole_scale {whole scale : List Char} (hw : Digits whole) :
    textValue (whole ++ 'e' :: scale) = Nat.ofDigitChars 10 whole 0 * 10 ^ signed scale := by
  have he := hw.not_mem (c := 'e') rfl
  have hp := hw.not_mem (c := '.') rfl
  rw [textValue, upTo_append he, beyond_append he, upTo_of_not_mem hp, beyond_of_not_mem hp]
  simp

/-! ### Layouts -/

/-- The first digits of digits. -/
theorem Digits.take {s : List Char} (h : Digits s) (n : Nat) : Digits (s.take n) :=
  fun c hc => h c (List.mem_of_mem_take hc)

/-- The last digits of digits. -/
theorem Digits.drop {s : List Char} (h : Digits s) (n : Nat) : Digits (s.drop n) :=
  fun c hc => h c (List.mem_of_mem_drop hc)

/-- Digits with a point after the first one and a scale. -/
theorem textValue_pointAfter_one {digits scale : List Char} (h : Digits digits)
    (hpos : 0 < digits.length) :
    textValue (pointAfter 1 digits ++ 'e' :: scale) =
      Nat.ofDigitChars 10 digits 0 * 10 ^ (signed scale - (digits.length - 1)) := by
  unfold pointAfter
  split_ifs with hone
  · rw [textValue_whole_scale h, show (digits.length : ℤ) - 1 = 0 by omega, sub_zero]
  · rw [textValue_scale (h.take 1) (h.drop 1), List.take_append_drop, List.length_drop,
      Nat.cast_sub hpos, Nat.cast_one]

/-- **The text of a decimal denotes the decimal.** -/
theorem textValue_write (d : Scaled) : textValue (standard.write d) = d.value := by
  have hdigits := digits_toDigits d.digits
  have hten := Nat.ofDigitChars_ten_toDigits (n := d.digits)
  have hpos : 0 < (Nat.toDigits 10 d.digits).length := Nat.length_toDigits_pos
  unfold Layout.write
  simp only [standard, toList_toString]
  generalize Nat.toDigits 10 d.digits = digits at hdigits hten hpos
  split_ifs with hplace hwhole hlead hlead
  · -- all digits before the point
    obtain ⟨e, he⟩ := Int.eq_ofNat_of_zero_le hwhole
    have htext : ∀ zeros : List Char,
        digits ++ zeros ++ ".0".toList = (digits ++ zeros) ++ '.' :: ['0'] := fun zeros => rfl
    have hzero : Nat.ofDigitChars 10 ['0'] (10 ^ e * d.digits) = 10 ^ e * d.digits * 10 := by
      rw [Nat.ofDigitChars_cons, Nat.ofDigitChars_nil]
      omega
    rw [htext, textValue_point (hdigits.append (.zeros _)) .zero,
      Nat.ofDigitChars_append, Nat.ofDigitChars_append, hten, Nat.ofDigitChars_replicate_zero,
      he, Int.toNat_natCast, hzero, Scaled.value, he, zpow_natCast]
    push_cast
    rw [List.length_singleton, Nat.cast_one, zpow_neg_one]
    ring
  · -- a point between the digits
    have hcut : (d.exponent + digits.length - 1).toNat + 1 < digits.length := by omega
    rw [pointAfter, if_neg (by omega), textValue_point (hdigits.take _) (hdigits.drop _),
      List.take_append_drop, hten, Scaled.value, List.length_drop]
    congr 2
    omega
  · -- zeros between the point and the digits
    have htext : ∀ zeros : List Char,
        '0' :: '.' :: zeros ++ digits = ['0'] ++ '.' :: (zeros ++ digits) :=
      fun zeros => rfl
    rw [htext, textValue_point .zero ((Digits.zeros _).append hdigits), List.singleton_append,
      Nat.ofDigitChars_cons, Nat.ofDigitChars_append, Nat.ofDigitChars_replicate_zero,
      List.length_append, List.length_replicate]
    rw [show 10 ^ _ * (10 * 0 + ('0'.toNat - '0'.toNat)) = 0 by simp, hten, Scaled.value]
    congr 2
    push_cast
    omega
  · rw [show "+".toList = ['+'] from rfl, List.append_assoc, List.cons_append,
      textValue_pointAfter_one hdigits hpos, List.singleton_append, signed_plus_toString hlead,
      hten, Scaled.value]
    congr 2
    omega
  · rw [List.append_assoc, List.singleton_append, textValue_pointAfter_one hdigits hpos,
      signed_toString, hten, Scaled.value]
    congr 2
    omega

/-! ### The characters of a number -/

/-- The characters that the texts of numbers are made of. -/
def isNumberChar (c : Char) : Bool :=
  c.isDigit || c == '-' || c == '+' || c == '.' || c == 'e'

/-- Digits are characters of numbers. -/
theorem Digits.isNumberChar {s : List Char} (h : Digits s) : ∀ c ∈ s, isNumberChar c = true :=
  fun c hc => by simp [Decimal.isNumberChar, h c hc]

/-- So are those that a whole number is written with. -/
theorem isNumberChar_toString (i : ℤ) : ∀ c ∈ (toString i).toList, isNumberChar c = true := by
  intro c hc
  rw [toList_toString_int, List.mem_append] at hc
  rcases hc with hc | hc
  · split_ifs at hc
    · exact absurd hc List.not_mem_nil
    · rw [List.mem_singleton.1 hc]
      rfl
  · exact (digits_toDigits _).isNumberChar c hc

/-- A text is a whole part, a point or an `e`, and further characters of numbers. -/
def Pointed (s : List Char) : Prop :=
  ∃ whole mark rest, s = whole ++ mark :: rest ∧ whole ≠ [] ∧ Digits whole ∧
    (mark = '.' ∨ mark = 'e') ∧ ∀ c ∈ rest, isNumberChar c = true

/-- With a point behind its first digit and a scale, a decimal is pointed. -/
theorem pointed_pointAfter_one {digits scale : List Char} (h : Digits digits) (hne : digits ≠ [])
    (hscale : ∀ c ∈ scale, isNumberChar c = true) :
    Pointed (pointAfter 1 digits ++ 'e' :: scale) := by
  unfold pointAfter
  split_ifs with hone
  · exact ⟨digits, 'e', scale, rfl, hne, h, .inr rfl, hscale⟩
  · refine ⟨digits.take 1, '.', digits.drop 1 ++ 'e' :: scale, by simp, by simp [hne], h.take 1,
      .inl rfl, ?_⟩
    intro c hc
    rcases List.mem_append.1 hc with hc | hc
    · exact (h.drop 1).isNumberChar c hc
    · rcases List.mem_cons.1 hc with rfl | hc
      · rfl
      · exact hscale c hc

/-- **Every layout of a decimal is pointed.** -/
theorem pointed_write (d : Scaled) : Pointed (standard.write d) := by
  have hdigits := digits_toDigits d.digits
  have hne : Nat.toDigits 10 d.digits ≠ [] := Nat.toDigits_ne_nil
  unfold Layout.write
  simp only [standard, toList_toString]
  generalize Nat.toDigits 10 d.digits = digits at hdigits hne
  split_ifs with hplace hwhole hlead hlead
  · exact ⟨digits ++ List.replicate d.exponent.toNat '0', '.', ['0'], rfl, by simp [hne],
      hdigits.append (.zeros _), .inl rfl, Digits.zero.isNumberChar⟩
  · have hcut : (d.exponent + digits.length - 1).toNat + 1 < digits.length := by omega
    rw [pointAfter, if_neg (by omega)]
    exact ⟨_, '.', _, rfl, by simp [hne], hdigits.take _, .inl rfl, (hdigits.drop _).isNumberChar⟩
  · exact ⟨['0'], '.', _, rfl, by simp, .zero, .inl rfl,
      ((Digits.zeros _).append hdigits).isNumberChar⟩
  · rw [show "+".toList = ['+'] from rfl, List.append_assoc, List.cons_append]
    refine pointed_pointAfter_one hdigits hne fun c hc => ?_
    rcases List.mem_cons.1 hc with rfl | hc
    · rfl
    · exact isNumberChar_toString _ c hc
  · rw [List.append_assoc, List.singleton_append]
    exact pointed_pointAfter_one hdigits hne (isNumberChar_toString _)

/-! ### Doubles -/

/-- The text of a double without its sign. -/
def unsignedText (x : Double) : List Char :=
  if x.isZero then '0' :: standard.wholeEnding.toList else standard.write (shortest x)

/-- A double is written as its sign and its magnitude. -/
theorem write_eq (x : Double) :
    write x = (if x.isNegative then ['-'] else []) ++ unsignedText x := by
  unfold write unsignedText
  split_ifs <;> rfl

/-- The text of a double has a point or an `e`. -/
theorem pointed_unsignedText (x : Double) : Pointed (unsignedText x) := by
  unfold unsignedText
  split_ifs
  · exact ⟨['0'], '.', ['0'], rfl, by simp, .zero, .inl rfl, Digits.zero.isNumberChar⟩
  · exact pointed_write _

/-- A double is zero if its magnitude is, whatever its sign. -/
theorem isZero_iff (x : Double) : x.isZero = true ↔ x.magnitudeBits = 0 := by
  rw [Double.isZero, beq_iff_eq]

/-- **The text of a double denotes its shortest decimal**, or zero. -/
theorem textValue_unsignedText (x : Double) :
    textValue (unsignedText x) = if x.magnitudeBits = 0 then 0 else (shortest x).value := by
  unfold unsignedText
  simp only [isZero_iff]
  split_ifs
  · rw [show '0' :: standard.wholeEnding.toList = ['0'] ++ '.' :: ['0'] from rfl,
      textValue_point .zero .zero]
    simp [Nat.ofDigitChars]
  · exact textValue_write _

/-- A decimal with a significand is positive. -/
theorem Scaled.value_pos {d : Scaled} (h : 0 < d.digits) : 0 < d.value := by
  unfold Scaled.value
  positivity

/-- The text without its sign tells the magnitude. -/
theorem magnitude_eq_of_unsignedText {x y : Double} (h : unsignedText x = unsignedText y) :
    x.magnitudeBits = y.magnitudeBits := by
  have hvalue := congrArg textValue h
  have hpos : ∀ z : Double, z.magnitudeBits ≠ 0 → (shortest z).value ≠ 0 := fun z hz =>
    (Scaled.value_pos (shortest_digits_pos hz)).ne'
  rw [textValue_unsignedText, textValue_unsignedText] at hvalue
  split_ifs at hvalue with hx hy hy
  · rw [hx, hy]
  · exact absurd hvalue.symm (hpos y hy)
  · exact absurd hvalue (hpos x hx)
  · exact magnitude_eq_of_shortest hx hy hvalue

/-- The bits of a double are its sign and its magnitude. -/
theorem bits_eq (x : Double) :
    x.bits.toNat = (if x.isNegative then 2 ^ 63 else 0) + x.magnitudeBits := by
  have hlt := x.bits.toNat_lt
  have h63 : Nat.pow 2 63 = 2 ^ 63 := rfl
  simp only [Double.isNegative, Double.magnitudeBits, h63, decide_eq_true_eq]
  split_ifs <;> omega

/-- A text that begins with a digit has no sign. -/
theorem Pointed.head_ne_minus {s : List Char} (h : Pointed s) (t : List Char) : s ≠ '-' :: t := by
  obtain ⟨whole, mark, rest, rfl, hne, hdigits, -, -⟩ := h
  obtain ⟨c, whole, rfl⟩ := List.exists_cons_of_ne_nil hne
  rintro heq
  rw [List.cons_append, List.cons.injEq] at heq
  exact absurd (hdigits c (by simp)) (by rw [heq.1]; decide)

/-- **The texts of doubles are apart.** -/
theorem write_injective : Function.Injective write := by
  intro x y h
  rw [write_eq, write_eq] at h
  have hx := (pointed_unsignedText x).head_ne_minus
  have hy := (pointed_unsignedText y).head_ne_minus
  have key : x.isNegative = y.isNegative ∧ unsignedText x = unsignedText y := by
    rcases hsx : x.isNegative <;> rcases hsy : y.isNegative <;> simp only [hsx, hsy] at h
    · exact ⟨rfl, h⟩
    · exact absurd h (hx _)
    · exact absurd h.symm (hy _)
    · exact ⟨rfl, List.cons.inj h |>.2⟩
  have hbits : x.bits.toNat = y.bits.toNat := by
    rw [bits_eq, bits_eq, key.1, magnitude_eq_of_unsignedText key.2]
  exact congrArg Double.mk (UInt64.toNat_inj.1 hbits)

end Decimal

/-! ### Numbers -/

open Decimal

/-- A number is written with characters of numbers only. -/
theorem Number.write_isNumberChar (n : Number) : ∀ c ∈ n.write, isNumberChar c = true := by
  intro c hc
  cases n with
  | int i => exact isNumberChar_toString i c hc
  | double x =>
    rw [Number.write, write_eq, List.mem_append] at hc
    rcases hc with hc | hc
    · split_ifs at hc
      · rw [List.mem_singleton.1 hc]
        rfl
      · exact absurd hc List.not_mem_nil
    · obtain ⟨whole, mark, rest, heq, -, hdigits, hmark, hrest⟩ := pointed_unsignedText x
      rw [heq, List.mem_append, List.mem_cons] at hc
      rcases hc with hc | rfl | hc
      · exact hdigits.isNumberChar c hc
      · rcases hmark with rfl | rfl <;> rfl
      · exact hrest c hc

/-- The text of a number is not empty. -/
theorem Number.write_ne_nil (n : Number) : n.write ≠ [] := by
  cases n with
  | int i =>
    rw [Number.write, toList_toString_int]
    simp
  | double x =>
    obtain ⟨whole, mark, rest, heq, -⟩ := pointed_unsignedText x
    rw [Number.write, write_eq, heq]
    simp

/-- A whole number has neither a point nor an `e`, and a double has one. -/
theorem Number.write_int_ne_double (i : ℤ) (x : Double) :
    (Number.int i).write ≠ (Number.double x).write := by
  obtain ⟨whole, mark, rest, heq, -, -, hmark, -⟩ := pointed_unsignedText x
  have hint : mark ∉ (Number.int i).write := by
    rw [Number.write, toList_toString_int, List.mem_append]
    rintro (h | h)
    · split_ifs at h
      · exact absurd h List.not_mem_nil
      · rcases hmark with rfl | rfl <;> exact absurd h (by decide)
    · rcases hmark with rfl | rfl <;> exact absurd (digits_toDigits _ _ h) (by decide)
  intro h
  refine hint ?_
  rw [h, Number.write, write_eq, heq]
  simp

/-- **The texts of numbers are apart.** -/
theorem Number.write_injective : Function.Injective Number.write := by
  intro n m h
  cases n with
  | int i =>
    cases m with
    | int j => rw [← signed_toString i, ← signed_toString j]; exact congrArg (Number.int ∘ signed) h
    | double y => exact absurd h (write_int_ne_double i y)
  | double x =>
    cases m with
    | int j => exact absurd h.symm (write_int_ne_double j x)
    | double y => rw [Decimal.write_injective h]

end HtmlCompose
