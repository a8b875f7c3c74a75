/-
# Doubles have intervals of their own

The reals that round to a double form an interval.  The intervals of the magnitudes
`0, 1, 2, …` follow one another without a gap: the upper end of one is the lower end
of the next (`high_eq_low_succ`), and of two neighbours only the one with the even
significand owns the end between them.  So no real lies in two of them
(`magnitude_eq_of_holds`).

Every interval holds a decimal of `17` digits.  The grid of `17` digits has a step of
at most `10 ^ -16` of the double, and its interval is wider than that
(`exists_gridPoint`).  Hence the search for the fewest digits always ends with a
decimal of the interval (`shortest_holds`), and the decimal tells the double apart
from all others (`magnitude_eq_of_shortest`).
-/
import HtmlCompose.Decimal.Shortest
import Mathlib

namespace HtmlCompose

namespace Decimal

/-! ### Magnitudes and their intervals -/

/-- The significand of a magnitude given by its bits. -/
def significand (k : Nat) : Nat :=
  if k < 2 ^ 52 then k else 2 ^ 52 + k % 2 ^ 52

/-- The power of a magnitude given by its bits. -/
def power (k : Nat) : Nat := k / 2 ^ 52 - 1

/-- A double is taken apart into the significand and the power of its magnitude. -/
theorem decode_eq (x : Double) :
    x.decode = (significand x.magnitudeBits, power x.magnitudeBits) := by
  have h52 : Nat.pow 2 52 = 2 ^ 52 := rfl
  simp only [Double.decode, significand, power, h52]
  split_ifs with h₁ h₂ h₂
  · rw [Prod.mk.injEq]
    omega
  · omega
  · omega
  · rfl

/-- The reals that round to a magnitude. -/
def magnitudeInterval (k : Nat) : Interval := .around (significand k) (power k)

/-- The lower end of an interval in quarters of its unit. -/
def lowQuarters (k : Nat) : Nat :=
  if significand k = 2 ^ 52 ∧ power k ≠ 0 then 4 * significand k - 1 else 4 * significand k - 2

theorem low_eq (k : Nat) : (magnitudeInterval k).low = lowQuarters k * 2 ^ power k := rfl

theorem high_eq (k : Nat) :
    (magnitudeInterval k).high = (4 * significand k + 2) * 2 ^ power k := rfl

/-- The double itself, in quarters of its unit. -/
theorem value_eq (k : Nat) : (magnitudeInterval k).value = 4 * significand k * 2 ^ power k := rfl

/-- The denominator that all intervals share. -/
def unitDen : Nat := (Interval.around 0 0).den

/-- All intervals have one denominator. -/
theorem den_eq (k : Nat) : (magnitudeInterval k).den = unitDen := rfl

theorem unitDen_pos : 0 < unitDen := by decide +kernel

/-- An interval owns its ends if its significand is even. -/
theorem closed_eq (k : Nat) : (magnitudeInterval k).closed = (k % 2 == 0) := by
  have h : significand k % 2 = k % 2 := by
    unfold significand
    split_ifs <;> omega
  rw [← h]
  rfl

/-- The upper end of an interval is the lower end of the next one. -/
theorem high_eq_low_succ (k : Nat) :
    (magnitudeInterval k).high = (magnitudeInterval (k + 1)).low := by
  rw [high_eq, low_eq]
  by_cases hcarry : significand k = 2 ^ 53 - 1
  · have hk : 2 ^ 52 ≤ k := by
      by_contra hk
      simp only [significand, if_pos (not_le.1 hk)] at hcarry
      omega
    have hpow : power (k + 1) = power k + 1 := by
      simp only [significand, if_neg (not_lt.2 hk)] at hcarry
      unfold power
      omega
    have hsig : significand (k + 1) = 2 ^ 52 := by
      simp only [significand, if_neg (not_lt.2 hk), if_neg (show ¬k + 1 < 2 ^ 52 by omega)] at *
      omega
    have hlow : lowQuarters (k + 1) = 4 * 2 ^ 52 - 1 := by
      rw [lowQuarters, if_pos ⟨hsig, by omega⟩, hsig]
    rw [hlow, hcarry, hpow, pow_succ]
    ring_nf
  · have hpow : power (k + 1) = power k := by
      unfold power significand at *
      split_ifs at hcarry <;> omega
    have hsig : significand (k + 1) = significand k + 1 := by
      unfold significand at *
      split_ifs at * <;> omega
    have hlow : lowQuarters (k + 1) = 4 * significand k + 2 := by
      unfold lowQuarters
      rw [hsig, hpow]
      split_ifs with h
      · exfalso
        unfold significand power at h
        split_ifs at h <;> omega
      · omega
    rw [hlow, hpow]

/-- A magnitude other than zero has a significand other than zero. -/
theorem significand_pos {k : Nat} (hk : 0 < k) : 0 < significand k := by
  unfold significand
  split_ifs <;> omega

/-- The lower end is below the double. -/
theorem low_lt_value {k : Nat} (hk : 0 < k) :
    (magnitudeInterval k).low < (magnitudeInterval k).value := by
  have hs := significand_pos hk
  rw [low_eq, value_eq]
  refine Nat.mul_lt_mul_of_pos_right ?_ (Nat.two_pow_pos _)
  unfold lowQuarters
  split_ifs <;> omega

/-- The upper end is above it. -/
theorem value_lt_high (k : Nat) : (magnitudeInterval k).value < (magnitudeInterval k).high := by
  rw [high_eq, value_eq]
  exact Nat.mul_lt_mul_of_pos_right (by omega) (Nat.two_pow_pos _)

/-- An interval is not empty. -/
theorem low_lt_high (k : Nat) : (magnitudeInterval k).low < (magnitudeInterval k).high := by
  rcases Nat.eq_zero_or_pos k with rfl | hk
  · decide +kernel
  · exact (low_lt_value hk).trans (value_lt_high k)

/-- The intervals follow one another in the order of the magnitudes. -/
theorem low_strictMono : StrictMono fun k => (magnitudeInterval k).low :=
  strictMono_nat_of_lt_succ fun k => high_eq_low_succ k ▸ low_lt_high k

/-- The intervals of all magnitudes but zero are of positive numbers. -/
theorem low_pos {k : Nat} (hk : 0 < k) : 0 < (magnitudeInterval k).low :=
  (Nat.zero_le _).trans_lt (low_strictMono hk)

/-! ### Numbers in an interval -/

/-- A number lies in an interval. -/
def Interval.Holds (i : Interval) (x : ℚ) : Prop :=
  if i.closed then i.low ≤ x * i.den ∧ x * i.den ≤ i.high
  else i.low < x * i.den ∧ x * i.den < i.high

/-- A number of an interval is between its ends. -/
theorem Interval.Holds.bounds {i : Interval} {x : ℚ} (h : i.Holds x) :
    (i.low : ℚ) ≤ x * i.den ∧ x * i.den ≤ i.high := by
  unfold Holds at h
  split_ifs at h
  · exact h
  · exact ⟨h.1.le, h.2.le⟩

/-- The test whether a fraction is in an interval does what it says. -/
theorem Interval.contains_iff (i : Interval) (num : Nat) {den : Nat} (hden : 0 < den) :
    i.contains num den = true ↔ i.Holds ((num : ℚ) / den) := by
  have hd : (0 : ℚ) < den := by exact_mod_cast hden
  have hx : (num : ℚ) / den * i.den = (num * i.den : ℕ) / den := by
    push_cast
    ring
  unfold contains Holds
  rw [hx]
  split_ifs
  · rw [Bool.and_eq_true, decide_eq_true_eq, decide_eq_true_eq, le_div_iff₀ hd, div_le_iff₀ hd]
    norm_cast
  · rw [Bool.and_eq_true, decide_eq_true_eq, decide_eq_true_eq, lt_div_iff₀ hd, div_lt_iff₀ hd]
    norm_cast

/-- **No number lies in the intervals of two magnitudes.** -/
theorem magnitude_eq_of_holds {k l : Nat} {x : ℚ} (hk : (magnitudeInterval k).Holds x)
    (hl : (magnitudeInterval l).Holds x) : k = l := by
  -- of two magnitudes the first one ends where the next one begins, which is the second at most
  have key : ∀ {k l : Nat}, (magnitudeInterval k).Holds x → (magnitudeInterval l).Holds x →
      ¬k < l := by
    intro k l hk hl hlt
    have hnext : (magnitudeInterval (k + 1)).low ≤ (magnitudeInterval l).low :=
      low_strictMono.monotone hlt
    have hends : (magnitudeInterval k).high = (magnitudeInterval l).low := by
      refine le_antisymm (high_eq_low_succ k ▸ hnext) ?_
      have h := hl.bounds.1.trans (by simpa only [den_eq] using hk.bounds.2)
      exact_mod_cast h
    have hl' : l = k + 1 := by
      refine (low_strictMono.injective ?_ : l = k + 1)
      simp only [← hends, high_eq_low_succ]
    subst hl'
    have hmid : x * unitDen = (magnitudeInterval k).high :=
      le_antisymm hk.bounds.2 (hends ▸ hl.bounds.1)
    have hk' : k % 2 = 0 := by
      by_contra hodd
      rw [Interval.Holds, closed_eq, if_neg (by simpa using hodd)] at hk
      exact absurd hmid hk.2.ne
    have hl' : (k + 1) % 2 = 0 := by
      by_contra hodd
      rw [Interval.Holds, closed_eq, if_neg (by simpa using hodd), ← hends] at hl
      exact absurd hmid.symm hl.1.ne
    omega
  exact le_antisymm (not_lt.1 (key hl hk)) (not_lt.1 (key hk hl))

/-! ### Powers of ten -/

/-- A power of ten is a fraction of two positive numbers. -/
theorem tenTo_pos (e : ℤ) : 0 < (tenTo e).1 ∧ 0 < (tenTo e).2 := by
  cases e with
  | ofNat e => exact ⟨Nat.pow_pos (by decide), Nat.one_pos⟩
  | negSucc e => exact ⟨Nat.one_pos, Nat.pow_pos (by decide)⟩

/-- That fraction is the power. -/
theorem tenTo_eq (e : ℤ) : ((tenTo e).1 : ℚ) / (tenTo e).2 = 10 ^ e := by
  cases e with
  | ofNat e => simp [tenTo]
  | negSucc e => simp [tenTo, zpow_negSucc]

/-- The largest power of ten that is at most a number is found below a start that is above it. -/
theorem leadingPower_spec (num : Nat) {den : Nat} (hden : 0 < den) (steps : Nat) (e : ℤ)
    (habove : (num : ℚ) / den < 10 ^ (e + 1)) (hbelow : (10 : ℚ) ^ (e - steps) ≤ num / den) :
    (10 : ℚ) ^ leadingPower num den steps e ≤ num / den ∧
      (num : ℚ) / den < 10 ^ (leadingPower num den steps e + 1) := by
  have hd : (0 : ℚ) < den := by exact_mod_cast hden
  induction steps generalizing e with
  | zero => exact ⟨by simpa [leadingPower] using hbelow, habove⟩
  | succ steps ih =>
    have hs : (0 : ℚ) < (tenTo e).2 := by exact_mod_cast (tenTo_pos e).2
    have htest : (tenTo e).1 * den ≤ num * (tenTo e).2 ↔ (10 : ℚ) ^ e ≤ num / den := by
      rw [← tenTo_eq, div_le_div_iff₀ hs hd]
      norm_cast
    unfold leadingPower
    simp only [htest]
    split_ifs with h
    · exact ⟨h, habove⟩
    · refine ih (e - 1) (by simpa using not_le.1 h) ?_
      rwa [show e - 1 - (steps : ℤ) = e - (steps + 1 : ℕ) by push_cast; ring]

/-! ### The grids -/

/-- The point of a grid that is found lies in the interval. -/
theorem Interval.gridPoint?_holds {i : Interval} {e : ℤ} {n : Nat} (h : i.gridPoint? e = some n) :
    i.Holds (n * 10 ^ e) := by
  obtain ⟨-, hs⟩ := tenTo_pos e
  have hpoint : ∀ n : Nat, i.contains (n * (tenTo e).1) (tenTo e).2 = true →
      i.Holds (n * 10 ^ e) := by
    intro n hn
    rw [i.contains_iff _ hs] at hn
    rwa [← tenTo_eq, ← mul_div_assoc, ← Nat.cast_mul]
  refine hpoint n ?_
  unfold gridPoint? at h
  simp only [Bool.and_eq_true] at h
  split_ifs at h with hboth _ htie hbelow habove <;> obtain rfl := Option.some.inj h
  · exact hboth.1
  · rcases Nat.mod_two_eq_zero_or_one (i.value * (tenTo e).2 / (i.den * (tenTo e).1)) with h0 | h1
    · rw [h0]
      exact hboth.1
    · rw [h1]
      exact hboth.2
  · exact hboth.2
  · exact hbelow
  · exact habove

/-- A grid whose step is below the width of the interval has a point in it. -/
theorem Interval.exists_gridPoint {i : Interval} {e : ℤ} (hden : 0 < i.den)
    (hlow : i.low < i.value) (hhigh : i.value < i.high)
    (hstep : (10 : ℚ) ^ e * i.den < i.high - i.low) : ∃ n, i.gridPoint? e = some n := by
  obtain ⟨hp, hs⟩ := tenTo_pos e
  set n := i.value * (tenTo e).2 / (i.den * (tenTo e).1) with hn
  have hp' : (0 : ℚ) < (tenTo e).1 := by exact_mod_cast hp
  have hs' : (0 : ℚ) < (tenTo e).2 := by exact_mod_cast hs
  have hpos : 0 < i.den * (tenTo e).1 := Nat.mul_pos hden hp
  -- the points `n` and `n + 1` of the grid are on the two sides of the double
  have hleft : (n : ℚ) * 10 ^ e * i.den ≤ i.value := by
    have h : n * (i.den * (tenTo e).1) ≤ i.value * (tenTo e).2 := Nat.div_mul_le_self _ _
    have h' : (n : ℚ) * (i.den * (tenTo e).1) ≤ i.value * (tenTo e).2 := by exact_mod_cast h
    rw [← tenTo_eq, show (n : ℚ) * ((tenTo e).1 / (tenTo e).2) * i.den =
      n * (i.den * (tenTo e).1) / (tenTo e).2 by ring, div_le_iff₀ hs']
    exact h'
  have hright : (i.value : ℚ) < (n + 1) * 10 ^ e * i.den := by
    have h : i.value * (tenTo e).2 < (n + 1) * (i.den * (tenTo e).1) :=
      Nat.lt_mul_of_div_lt (Nat.lt_succ_self n) hpos
    have h' : (i.value : ℚ) * (tenTo e).2 < (n + 1) * (i.den * (tenTo e).1) := by exact_mod_cast h
    rw [← tenTo_eq, show ((n : ℚ) + 1) * ((tenTo e).1 / (tenTo e).2) * i.den =
      (n + 1) * (i.den * (tenTo e).1) / (tenTo e).2 by ring, lt_div_iff₀ hs']
    exact h'
  have hlow' : (i.low : ℚ) < i.value := by exact_mod_cast hlow
  have hhigh' : (i.value : ℚ) < i.high := by exact_mod_cast hhigh
  have hin : ∀ m : Nat, (i.low : ℚ) < m * 10 ^ e * i.den → (m : ℚ) * 10 ^ e * i.den < i.high →
      i.contains (m * (tenTo e).1) (tenTo e).2 = true := by
    intro m h₁ h₂
    rw [i.contains_iff _ hs, Nat.cast_mul, mul_div_assoc, tenTo_eq]
    unfold Holds
    split_ifs
    · exact ⟨h₁.le, h₂.le⟩
    · exact ⟨h₁, h₂⟩
  have hone : i.contains (n * (tenTo e).1) (tenTo e).2 = true ∨
      i.contains ((n + 1) * (tenTo e).1) (tenTo e).2 = true := by
    by_cases h : (i.low : ℚ) < n * 10 ^ e * i.den
    · exact .inl (hin n h (hleft.trans_lt hhigh'))
    · refine .inr (hin (n + 1) ?_ ?_)
      · push_cast
        exact hlow'.trans hright
      · push_cast
        nlinarith [not_lt.1 h]
  unfold gridPoint?
  simp only [← hn]
  rcases hone with h | h <;> simp only [h, Bool.true_and, Bool.and_true] <;> split_ifs <;>
    exact ⟨_, rfl⟩

/-! ### The shortest decimal -/

/-- The number that a decimal denotes. -/
def Scaled.value (d : Scaled) : ℚ := d.digits * 10 ^ d.exponent

/-- Zeros at the end of a decimal may be moved to its scale. -/
theorem dropZeros_value (steps n : Nat) (e : ℤ) : (dropZeros steps n e).value = n * 10 ^ e := by
  induction steps generalizing n e with
  | zero => rfl
  | succ steps ih =>
    unfold dropZeros
    split_ifs with h
    · have hn : ((n / 10 : ℕ) : ℚ) * 10 = n := by
        exact_mod_cast Nat.div_mul_cancel (Nat.dvd_of_mod_eq_zero h)
      rw [ih, zpow_add_one₀ (by norm_num), ← hn]
      ring
    · rfl

/-- The first grid with a point in the interval gives a decimal of the interval. -/
theorem Interval.firstPoint_holds {i : Interval} {lead : ℤ} (last : Nat) {steps digits : Nat}
    (hfirst : digits ≤ last) (hlast : last < digits + steps)
    (hpoint : ∃ n, i.gridPoint? (lead - last + 1) = some n) :
    i.Holds (i.firstPoint lead steps digits).value := by
  induction steps generalizing digits with
  | zero => omega
  | succ steps ih =>
    simp only [firstPoint]
    cases hg : i.gridPoint? (lead - digits + 1) with
    | none =>
      have hne : digits ≠ last := by
        rintro rfl
        obtain ⟨n, hn⟩ := hpoint
        exact absurd (hg.symm.trans hn) (by simp)
      exact ih (by omega) (by omega)
    | some n =>
      simp only [dropZeros_value]
      exact i.gridPoint?_holds hg

/-- A significand has 53 bits. -/
theorem significand_lt (k : Nat) : significand k < 2 ^ 53 := by
  unfold significand
  split_ifs <;> omega

/-- An interval is wider than a `10 ^ -16`th of its double. -/
theorem value_lt_width {k : Nat} (hk : 0 < k) :
    (magnitudeInterval k).value <
      10 ^ 16 * ((magnitudeInterval k).high - (magnitudeInterval k).low) := by
  have hs := significand_lt k
  have hs' := significand_pos hk
  rw [low_eq, high_eq, value_eq, ← Nat.sub_mul, ← Nat.mul_assoc]
  refine Nat.mul_lt_mul_of_pos_right ?_ (Nat.two_pow_pos _)
  unfold lowQuarters
  split_ifs with h
  · rw [h.1]
    norm_num
  · omega

/-- Powers of two compare as their exponents do, also where one is a power of a power. -/
theorem two_pow_le {p q s : Nat} (h : p ≤ q * s) : 2 ^ p ≤ (2 ^ q) ^ s := by
  rw [← Nat.pow_mul]
  exact Nat.pow_le_pow_right (by decide) h

/-- The doubles lie between `10 ^ -331` and `10 ^ 310`. -/
theorem value_range {k : Nat} (hk : 0 < k) (hk' : k < 2 ^ 63) :
    (magnitudeInterval k).value < 10 ^ 310 * unitDen ∧
      unitDen ≤ 10 ^ 331 * (magnitudeInterval k).value := by
  have hs := significand_lt k
  have hs' := significand_pos hk
  have hp : power k ≤ 186 * 11 := by
    unfold power
    omega
  rw [value_eq]
  constructor
  · calc 4 * significand k * 2 ^ power k ≤ 4 * 2 ^ 53 * (2 ^ 186) ^ 11 :=
        Nat.mul_le_mul (by omega) (two_pow_le hp)
      _ < 10 ^ 310 * unitDen := by decide +kernel
  · calc unitDen ≤ 10 ^ 331 * 4 := by decide +kernel
      _ ≤ 10 ^ 331 * (4 * significand k * 2 ^ power k) :=
        Nat.mul_le_mul_left _ (Nat.le_mul_of_pos_right _ (Nat.two_pow_pos _) |>.trans' (by omega))

/-- A fraction with a numerator below a power of ten times the denominator is below that power. -/
theorem div_lt_tenTo {num den : Nat} (hden : 0 < den) (n : Nat) (h : num < 10 ^ n * den) :
    (num : ℚ) / den < 10 ^ (n : ℤ) := by
  have hd : (0 : ℚ) < den := by exact_mod_cast hden
  rw [div_lt_iff₀ hd, zpow_natCast]
  exact_mod_cast h

/-- A fraction with a denominator up to a power of ten times the numerator is not below the inverse
of that power. -/
theorem tenTo_neg_le_div {num den : Nat} (hden : 0 < den) (n : Nat) (h : den ≤ 10 ^ n * num) :
    (10 : ℚ) ^ (-(n : ℤ)) ≤ num / den := by
  have hd : (0 : ℚ) < den := by exact_mod_cast hden
  have h' : (den : ℚ) ≤ 10 ^ n * num := by exact_mod_cast h
  rw [zpow_neg, zpow_natCast, le_div_iff₀ hd, inv_mul_le_iff₀ (by positivity)]
  exact h'

/-- The shortest decimal of a double lies in its interval. -/
theorem shortest_holds {x : Double} (hx : x.magnitudeBits ≠ 0) :
    (magnitudeInterval x.magnitudeBits).Holds (shortest x).value := by
  have hshort : shortest x = (magnitudeInterval x.magnitudeBits).firstPoint
      (leadingPower (magnitudeInterval x.magnitudeBits).value unitDen 640 309) 17 1 := by
    rw [shortest, decode_eq]
    rfl
  have hpos : 0 < x.magnitudeBits := Nat.pos_of_ne_zero hx
  have hd : (0 : ℚ) < unitDen := by exact_mod_cast unitDen_pos
  obtain ⟨habove, hbelow⟩ := value_range hpos (Nat.mod_lt _ (by decide))
  rw [hshort]
  generalize x.magnitudeBits = k at hpos habove hbelow
  have hstart := div_lt_tenTo unitDen_pos 310 habove
  have hend := tenTo_neg_le_div unitDen_pos 331 hbelow
  rw [show ((310 : ℕ) : ℤ) = 309 + 1 from rfl] at hstart
  rw [show -((331 : ℕ) : ℤ) = 309 - (640 : ℕ) from rfl] at hend
  obtain ⟨hlead, -⟩ := leadingPower_spec _ unitDen_pos 640 309 hstart hend
  generalize leadingPower (magnitudeInterval k).value unitDen 640 309 = lead at hlead
  refine Interval.firstPoint_holds 17 (by omega) (by omega) ?_
  refine Interval.exists_gridPoint unitDen_pos (low_lt_value hpos) (value_lt_high k) ?_
  -- the step of the last grid is at most the `10 ^ 16`th part of the double
  have hwidth : ((magnitudeInterval k).value : ℚ) <
      10 ^ 16 * ((magnitudeInterval k).high - (magnitudeInterval k).low) := by
    rw [← Nat.cast_sub (low_lt_high k).le]
    exact_mod_cast value_lt_width hpos
  rw [le_div_iff₀ hd] at hlead
  have hstep : (10 : ℚ) ^ (lead - (17 : ℕ) + 1) = 10 ^ lead / 10 ^ 16 := by
    rw [show lead - (17 : ℕ) + 1 = lead - (16 : ℕ) by push_cast; ring, zpow_sub₀ (by norm_num),
      zpow_natCast]
  rw [hstep, den_eq, div_mul_eq_mul_div, div_lt_iff₀ (by norm_num), mul_comm _ ((10 : ℚ) ^ 16)]
  exact hlead.trans_lt hwidth

/-- The shortest decimal of a double other than zero has digits. -/
theorem shortest_digits_pos {x : Double} (hx : x.magnitudeBits ≠ 0) : 0 < (shortest x).digits := by
  have hlow := low_pos (Nat.pos_of_ne_zero hx)
  refine Nat.pos_of_ne_zero fun h0 => ?_
  have hholds := (shortest_holds hx).bounds.1
  rw [Scaled.value, h0, Nat.cast_zero, zero_mul, zero_mul] at hholds
  exact absurd (by exact_mod_cast hholds) (not_le.2 hlow)

/-- **The shortest decimal tells a double's magnitude.** -/
theorem magnitude_eq_of_shortest {x y : Double} (hx : x.magnitudeBits ≠ 0)
    (hy : y.magnitudeBits ≠ 0) (h : (shortest x).value = (shortest y).value) :
    x.magnitudeBits = y.magnitudeBits :=
  magnitude_eq_of_holds (shortest_holds hx) (by rw [h]; exact shortest_holds hy)

end Decimal
end HtmlCompose
