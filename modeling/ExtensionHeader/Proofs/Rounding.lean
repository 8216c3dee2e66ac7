import ExtensionHeader.Decimal.Shortest
import Mathlib.Data.Nat.Cast.Field
import Mathlib.Data.Rat.Floor
import Mathlib.Tactic.FieldSimp
import Mathlib.Tactic.Linarith
import Mathlib.Tactic.Positivity
import Mathlib.Tactic.Ring

/-! Rounding to binary64, and why the shortest decimal reads back. A decimal is rounded to the
nearest number, of two to the one with the even significand. Every decimal in the interval of a
number is rounded to it, and the search for the shortest one ends in the interval. -/
namespace ExtensionHeader

def nearestEven (q : ℚ) : Nat :=
  let k := ⌊q⌋₊
  if q - k < 1 / 2 ∨ q - k = 1 / 2 ∧ k % 2 = 0 then k else k + 1

theorem nearestEven_eq {q : ℚ} {m : Nat} (hq : 0 ≤ q) (hlow : (m : ℚ) - 1 / 2 ≤ q)
    (hhigh : q ≤ m + 1 / 2) (heven : m % 2 = 0 ∨ (m : ℚ) - 1 / 2 < q ∧ q < m + 1 / 2) :
    nearestEven q = m := by
  unfold nearestEven
  dsimp only
  by_cases hm : (m : ℚ) ≤ q
  · have hfloor : ⌊q⌋₊ = m := (Nat.floor_eq_iff hq).mpr ⟨hm, by linarith⟩
    rw [hfloor, if_pos]
    rcases heven with heven | ⟨-, hlt⟩
    · rcases lt_or_eq_of_le hhigh with hlt | heq
      · exact .inl (by linarith)
      · exact .inr ⟨by linarith, heven⟩
    · exact .inl (by linarith)
  · have hpos : m ≠ 0 := by
      rintro rfl
      exact hm (by simpa using hq)
    obtain ⟨k, rfl⟩ := Nat.exists_eq_succ_of_ne_zero hpos
    push_cast at hlow hhigh heven hm
    have hfloor : ⌊q⌋₊ = k := (Nat.floor_eq_iff hq).mpr ⟨by linarith, by linarith⟩
    rw [hfloor, if_neg]
    rintro (hlt | ⟨heq, hk⟩)
    · linarith
    · rcases heven with heven | ⟨hlt, -⟩
      · omega
      · linarith

theorem log2_floor_sub {v : ℚ} {s : Nat} (hlow : s = 0 ∧ 0 ≤ v ∨ 2 ^ (52 + s) ≤ v)
    (hhigh : v < 2 ^ (53 + s)) : ⌊v⌋₊.log2 - 52 = s := by
  have hv : 0 ≤ v := by
    rcases hlow with ⟨-, hv⟩ | hlow
    · exact hv
    · exact le_trans (by positivity) hlow
  have hlt : ⌊v⌋₊ < 2 ^ (53 + s) := by
    rw [Nat.floor_lt hv]
    exact_mod_cast hhigh
  rcases hlow with ⟨rfl, -⟩ | hlow
  · by_cases hzero : ⌊v⌋₊ = 0
    · rw [hzero, Nat.log2_zero]
    · have hlog := (Nat.log2_lt hzero).mpr hlt
      omega
  · have hle : 2 ^ (52 + s) ≤ ⌊v⌋₊ := by
      apply Nat.le_floor
      exact_mod_cast hlow
    have hpos : ⌊v⌋₊ ≠ 0 := by
      have := Nat.two_pow_pos (52 + s)
      omega
    have hlog : ⌊v⌋₊.log2 = 52 + s := by
      rw [Nat.log2_eq_iff hpos]
      refine ⟨hle, ?_⟩
      rwa [show 52 + s + 1 = 53 + s by omega]
    omega

namespace Binary64

/-- The nearest binary64 number of a number that is not negative; infinity if it is too large. All
binary64 numbers are multiples of `2 ^ (-1074)`, and the bits of a number are its significand at its
place, with the leading one carried into the exponent. -/
def round (q : ℚ) : Binary64 :=
  let scaled := q * 2 ^ 1074
  let shift := ⌊scaled⌋₊.log2 - 52
  let bits := shift * leadingOne + nearestEven (scaled / 2 ^ shift)
  ⟨UInt64.ofNat (min bits (2047 * leadingOne))⟩

def magnitude (x : Binary64) : Binary64 :=
  ⟨UInt64.ofNat (x.exponentField * leadingOne + x.fraction)⟩

def shift (x : Binary64) : Nat := max x.exponentField 1 - 1

theorem fraction_lt (x : Binary64) : x.fraction < leadingOne := Nat.mod_lt _ (by decide)

theorem significand_lt (x : Binary64) : x.significand < 2 * leadingOne := by
  have := x.fraction_lt
  unfold significand
  split <;> omega

theorem magnitude_eq (x : Binary64) :
    x.magnitude = ⟨UInt64.ofNat (x.shift * leadingOne + x.significand)⟩ := by
  have hbits : x.exponentField * leadingOne + x.fraction =
      x.shift * leadingOne + x.significand := by
    unfold shift significand
    split
    · rename_i hzero
      simp [hzero]
    · rename_i hne
      obtain ⟨k, hk⟩ := Nat.exists_eq_succ_of_ne_zero hne
      rw [hk, show max k.succ 1 - 1 = k by omega, Nat.succ_mul]
      omega
  rw [magnitude, hbits]

theorem leadingOne_le_significand {x : Binary64} (h : x.shift ≠ 0) :
    leadingOne ≤ x.significand := by
  unfold shift at h
  unfold significand
  rw [if_neg (by omega)]
  omega

def below (x : Binary64) : Nat := if x.fraction = 0 ∧ 1 < x.exponentField then 1 else 2

theorem below_eq_one_iff (x : Binary64) :
    x.below = 1 ↔ x.significand = leadingOne ∧ x.shift ≠ 0 := by
  have := x.fraction_lt
  unfold below significand shift
  constructor
  · intro h
    split at h
    · rename_i hlow
      rw [if_neg (by omega)]
      omega
    · contradiction
  · rintro ⟨hsignificand, hshift⟩
    rw [if_neg (by omega)] at hsignificand
    rw [if_pos (by omega)]

theorem below_pos (x : Binary64) : 0 < x.below ∧ x.below ≤ 2 := by
  unfold below
  split <;> decide

theorem cast_below_le (x : Binary64) : (x.below : ℚ) ≤ 2 := by
  exact_mod_cast x.below_pos.2

/-- The number `q` lies in the interval of `x`: no further from it than half the way to the next
numbers, and nearer if the significand is odd. -/
@[mk_iff near_iff_bounds]
structure Near (x : Binary64) (q : ℚ) : Prop where
  nonneg : 0 ≤ q
  low : (4 * x.significand : ℚ) - x.below ≤ 4 * (q * 2 ^ 1074 / 2 ^ x.shift)
  high : 4 * (q * 2 ^ 1074 / 2 ^ x.shift) ≤ (4 * x.significand : ℚ) + 2
  strict : x.significand % 2 = 0 ∨
    (4 * x.significand : ℚ) - x.below < 4 * (q * 2 ^ 1074 / 2 ^ x.shift) ∧
      4 * (q * 2 ^ 1074 / 2 ^ x.shift) < (4 * x.significand : ℚ) + 2

/-- A number given in units of the place `s`, with 53 bits before the point, or fewer at the last
place. -/
theorem round_eq_of_place {q r : ℚ} {s : Nat} (hr : q * 2 ^ 1074 = r * 2 ^ s)
    (hlow : s = 0 ∧ 0 ≤ r ∨ 2 ^ 52 ≤ r) (hhigh : r < 2 ^ 53) :
    round q = ⟨UInt64.ofNat (min (s * leadingOne + nearestEven r) (2047 * leadingOne))⟩ := by
  have hpos : (0 : ℚ) < 2 ^ s := by positivity
  have hshift : ⌊q * 2 ^ 1074⌋₊.log2 - 52 = s := by
    rw [hr]
    apply log2_floor_sub
    · rcases hlow with ⟨rfl, hr⟩ | hlow
      · exact .inl ⟨rfl, by positivity⟩
      · right
        rw [pow_add]
        exact mul_le_mul_of_nonneg_right hlow hpos.le
    · rw [pow_add]
      exact mul_lt_mul_of_pos_right hhigh hpos
  unfold round
  dsimp only
  rw [hshift, hr, mul_div_cancel_right₀ _ hpos.ne']

theorem magnitude_eq_min {x : Binary64} (hfinite : x.exponentField < 2047) :
    x.magnitude =
      ⟨UInt64.ofNat (min (x.shift * leadingOne + x.significand) (2047 * leadingOne))⟩ := by
  have hle : x.shift * leadingOne + x.significand ≤ 2047 * leadingOne := by
    have hlt := x.significand_lt
    have hshift : x.shift ≤ 2045 := by
      unfold shift
      omega
    have hmul := Nat.mul_le_mul_right leadingOne hshift
    omega
  rw [Nat.min_eq_left hle, magnitude_eq]

theorem significand_eq_of_small {x : Binary64} {r : ℚ} (hshift : x.shift ≠ 0)
    (hsmall : r < 2 ^ 52) (hlow : (4 * x.significand : ℚ) - x.below ≤ 4 * r) :
    x.significand = leadingOne := by
  have hbelow := x.cast_below_le
  apply Nat.le_antisymm _ (leadingOne_le_significand hshift)
  by_contra hgreater
  have hnext : 2 ^ 52 + 1 ≤ x.significand := by
    have : leadingOne + 1 ≤ x.significand := by omega
    exact this
  have hcast : (2 ^ 52 + 1 : ℚ) ≤ x.significand := by exact_mod_cast hnext
  linarith

/-- There the next places are twice as near, and what is nearest in them overflows to the least
number of the exponent. -/
theorem round_eq_of_small {q r : ℚ} {s : Nat} (hr : q * 2 ^ 1074 = r * 2 ^ (s + 1))
    (hsmall : r < 2 ^ 52) (hlow : 4 * 2 ^ 52 - 1 ≤ 4 * r) :
    round q = ⟨UInt64.ofNat (min ((s + 1) * leadingOne + leadingOne) (2047 * leadingOne))⟩ := by
  have hdouble : q * 2 ^ 1074 = 2 * r * 2 ^ s := by
    rw [hr, pow_succ]
    ring
  have hnearest : nearestEven (2 * r) = 2 ^ 53 := by
    apply nearestEven_eq (by linarith)
    · push_cast
      linarith
    · push_cast
      linarith
    · left
      decide
  have hbits : s * leadingOne + 2 ^ 53 = (s + 1) * leadingOne + leadingOne := by
    have hsum : 2 ^ 53 = leadingOne + leadingOne := by decide
    rw [Nat.succ_mul, hsum, Nat.add_assoc]
  rw [round_eq_of_place hdouble (.inr (by linarith)) (by linarith), hnearest, hbits]

theorem Near.round_eq {x : Binary64} {q : ℚ} (hfinite : x.exponentField < 2047) (h : x.Near q) :
    round q = x.magnitude := by
  obtain ⟨hq, hlow, hhigh, hstrict⟩ := h
  have hpos : (0 : ℚ) < 2 ^ x.shift := by positivity
  have hr : q * 2 ^ 1074 = q * 2 ^ 1074 / 2 ^ x.shift * 2 ^ x.shift :=
    (div_mul_cancel₀ _ hpos.ne').symm
  have hnonneg : 0 ≤ q * 2 ^ 1074 / 2 ^ x.shift := by positivity
  generalize q * 2 ^ 1074 / 2 ^ x.shift = r at hlow hhigh hstrict hr hnonneg
  have hbelow := x.cast_below_le
  rw [magnitude_eq_min hfinite]
  by_cases hplace : x.shift = 0 ∨ 2 ^ 52 ≤ r
  · have hsignificand : (x.significand : ℚ) + 1 ≤ 2 ^ 53 := by
      have hlt : x.significand + 1 ≤ 2 ^ 53 := x.significand_lt
      exact_mod_cast hlt
    have hnearest : nearestEven r = x.significand := by
      apply nearestEven_eq hnonneg (by linarith) (by linarith)
      refine hstrict.imp_right fun hstrict => ?_
      constructor
      · linarith
      · linarith
    rw [round_eq_of_place hr (hplace.imp_left fun hzero => ⟨hzero, hnonneg⟩) (by linarith),
      hnearest]
  · obtain ⟨hshift, hsmall⟩ := not_or.mp hplace
    rw [not_le] at hsmall
    have hsignificand := significand_eq_of_small hshift hsmall hlow
    have hone : x.below = 1 := (below_eq_one_iff x).mpr ⟨hsignificand, hshift⟩
    have hcast : (x.significand : ℚ) = 2 ^ 52 := by
      rw [hsignificand]
      norm_num [leadingOne]
    rw [hone, hcast, Nat.cast_one] at hlow
    obtain ⟨s, hs⟩ := Nat.exists_eq_succ_of_ne_zero hshift
    rw [hs] at hr ⊢
    rw [round_eq_of_small hr hsmall hlow, hsignificand]

end Binary64

def Decimal.value (d : Decimal) : ℚ := d.coefficient * 10 ^ d.exponent

theorem Decimal.value_nonneg (d : Decimal) : 0 ≤ d.value :=
  mul_nonneg (Nat.cast_nonneg _) (zpow_nonneg (by norm_num) _)

theorem zpow_mul_pow_toNat {b : ℚ} (hb : b ≠ 0) (e : ℤ) :
    b ^ e * b ^ (-e).toNat = b ^ e.toNat := by
  rw [← zpow_natCast, ← zpow_natCast, ← zpow_add₀ hb]
  congr 1
  omega

namespace RoundingInterval

@[mk_iff]
structure Holds (i : RoundingInterval) (q : ℚ) : Prop where
  low : (i.low : ℚ) ≤ q * i.unit
  high : q * i.unit ≤ i.high
  strict : i.isClosed = true ∨ (i.low : ℚ) < q * i.unit ∧ q * i.unit < i.high

variable {i : RoundingInterval}

theorem contains_iff_holds {k : Nat} : i.contains k = true ↔ i.Holds k := by
  unfold contains
  rw [holds_iff]
  split
  · rename_i hclosed
    simp only [hclosed, true_or, and_true, Bool.and_eq_true, decide_eq_true_eq]
    norm_cast
  · rename_i hopen
    simp only [hopen, Bool.and_eq_true, decide_eq_true_eq]
    norm_cast
    exact ⟨fun h => ⟨h.1.le, h.2.le, .inr h⟩, fun h => h.2.2.resolve_left id⟩

theorem contains_of_nearest? {k : Nat} (h : i.nearest? = some k) : i.contains k = true := by
  unfold nearest? at h
  dsimp only at h
  split at h
  · cases h
    assumption
  · cases h
    assumption
  · cases h
    split <;> assumption
  · contradiction

theorem ten_zpow_mul (e : ℤ) : (10 : ℚ) ^ e * 10 ^ (-e).toNat = 10 ^ e.toNat :=
  zpow_mul_pow_toNat (by norm_num) e

theorem cast_nat_pow_ten (n : Nat) : ((Nat.pow 10 n : Nat) : ℚ) = 10 ^ n := Nat.cast_pow 10 n

theorem holds_inUnitsOf {e : ℤ} {q : ℚ} :
    (i.inUnitsOf e).Holds q ↔ i.Holds (q * 10 ^ e) := by
  have hup : (0 : ℚ) < 10 ^ (-e).toNat := by positivity
  have hunit : q * (i.inUnitsOf e).unit = q * 10 ^ e * i.unit * 10 ^ (-e).toNat := by
    show q * ((i.unit * Nat.pow 10 e.toNat : Nat) : ℚ) = _
    rw [Nat.cast_mul, cast_nat_pow_ten, ← ten_zpow_mul]
    ring
  have hend : ∀ n : Nat, ((n * Nat.pow 10 (-e).toNat : Nat) : ℚ) = n * 10 ^ (-e).toNat := by
    intro n
    rw [Nat.cast_mul, cast_nat_pow_ten]
  have hlow : ((i.inUnitsOf e).low : ℚ) = i.low * 10 ^ (-e).toNat := hend i.low
  have hhigh : ((i.inUnitsOf e).high : ℚ) = i.high * 10 ^ (-e).toNat := hend i.high
  rw [holds_iff, holds_iff, hlow, hhigh, hunit]
  simp only [mul_le_mul_iff_left₀ hup, mul_lt_mul_iff_left₀ hup]
  rfl

theorem unit_inUnitsOf_ne_zero (hunit : i.unit ≠ 0) (e : ℤ) : (i.inUnitsOf e).unit ≠ 0 := by
  have hpos : 0 < i.unit * 10 ^ e.toNat := by positivity
  exact hpos.ne'

theorem value_of_dvd {e : ℤ} (hunit : i.unit ≠ 0)
    (hdvd : (i.inUnitsOf e).unit ∣ (i.inUnitsOf e).value) :
    Decimal.value ⟨(i.inUnitsOf e).value / (i.inUnitsOf e).unit, e⟩ = i.value / i.unit := by
  have hscaled : ((i.inUnitsOf e).unit : ℚ) ≠ 0 := by
    exact_mod_cast unit_inUnitsOf_ne_zero hunit e
  have hcast : (i.unit : ℚ) ≠ 0 := by exact_mod_cast hunit
  unfold Decimal.value
  dsimp only
  rw [Nat.cast_div hdvd hscaled, div_mul_eq_mul_div, div_eq_div_iff hscaled hcast]
  show ((i.value * Nat.pow 10 (-e).toNat : Nat) : ℚ) * 10 ^ e * i.unit =
    i.value * ((i.unit * Nat.pow 10 e.toNat : Nat) : ℚ)
  rw [Nat.cast_mul, Nat.cast_mul, cast_nat_pow_ten, cast_nat_pow_ten, ← ten_zpow_mul e]
  ring

/-- The search ends with a number of the interval if its last grid has the number itself. -/
theorem holds_search (hvalue : i.Holds (i.value / i.unit)) (hunit : i.unit ≠ 0) (steps : Nat)
    (e : ℤ) (hdvd : (i.inUnitsOf (e - steps)).unit ∣ (i.inUnitsOf (e - steps)).value) :
    i.Holds (i.search steps e).value := by
  induction steps generalizing e with
  | zero =>
    rw [Nat.cast_zero, sub_zero] at hdvd
    unfold search
    rw [value_of_dvd hunit hdvd]
    exact hvalue
  | succ steps ih =>
    unfold search
    split
    · rename_i k hk
      exact holds_inUnitsOf.mp (contains_iff_holds.mp (contains_of_nearest? hk))
    · apply ih
      have hlast : e - 1 - (steps : ℤ) = e - ((steps + 1 : Nat) : ℤ) := by
        push_cast
        ring
      rwa [hlast]

end RoundingInterval

namespace Binary64

variable {x : Binary64}

theorem significand_ne_zero (h : x.isZero = false) : x.significand ≠ 0 := by
  unfold isZero at h
  unfold significand
  rw [Bool.and_eq_false_iff, decide_eq_false_iff_not, decide_eq_false_iff_not] at h
  split
  · rename_i hfield
    exact h.resolve_left (not_not.mpr hfield)
  · unfold leadingOne
    omega

theorem two_pow_exponent (x : Binary64) :
    (2 : ℚ) ^ (-x.exponent).toNat = 2 ^ 1074 / 2 ^ x.shift * 2 ^ x.exponent.toNat := by
  have hpos : (2 : ℚ) ^ x.shift ≠ 0 := by positivity
  have hsum : (-x.exponent).toNat + x.shift = 1074 + x.exponent.toNat := by
    unfold exponent shift
    omega
  rw [div_mul_eq_mul_div, eq_div_iff hpos, ← pow_add, ← pow_add, hsum]

theorem cast_nat_pow_two (n : Nat) : ((Nat.pow 2 n : Nat) : ℚ) = 2 ^ n := Nat.cast_pow 2 n

theorem unit_ne_zero (x : Binary64) : (RoundingInterval.of x).unit ≠ 0 := by
  have hpos : 0 < 4 * 2 ^ (-x.exponent).toNat := by positivity
  exact hpos.ne'

theorem holds_value (h : x.isZero = false) :
    (RoundingInterval.of x).Holds
      ((RoundingInterval.of x).value / (RoundingInterval.of x).unit) := by
  have hup : 0 < Nat.pow 2 x.exponent.toNat := Nat.two_pow_pos _
  have hunit : ((RoundingInterval.of x).unit : ℚ) ≠ 0 := by exact_mod_cast x.unit_ne_zero
  have hsignificand := significand_ne_zero h
  have hbelow := x.below_pos
  have hlow : (RoundingInterval.of x).low < (RoundingInterval.of x).value :=
    Nat.mul_lt_mul_of_pos_right (by change 4 * x.significand - x.below < _; omega) hup
  have hhigh : (RoundingInterval.of x).value < (RoundingInterval.of x).high :=
    Nat.mul_lt_mul_of_pos_right (by omega) hup
  have hlow' : ((RoundingInterval.of x).low : ℚ) < (RoundingInterval.of x).value := by
    exact_mod_cast hlow
  have hhigh' : ((RoundingInterval.of x).value : ℚ) < (RoundingInterval.of x).high := by
    exact_mod_cast hhigh
  constructor
  · rw [div_mul_cancel₀ _ hunit]
    exact hlow'.le
  · rw [div_mul_cancel₀ _ hunit]
    exact hhigh'.le
  · rw [div_mul_cancel₀ _ hunit]
    exact .inr ⟨hlow', hhigh'⟩

theorem holds_iff_near {q : ℚ} (h : x.significand ≠ 0) (hq : 0 ≤ q) :
    (RoundingInterval.of x).Holds q ↔ x.Near q := by
  have hup : (0 : ℚ) < 2 ^ x.exponent.toNat := by positivity
  have hunit : q * (RoundingInterval.of x).unit =
      4 * (q * 2 ^ 1074 / 2 ^ x.shift) * 2 ^ x.exponent.toNat := by
    show q * ((4 * Nat.pow 2 (-x.exponent).toNat : Nat) : ℚ) = _
    rw [Nat.cast_mul, cast_nat_pow_two, two_pow_exponent]
    generalize (2 : ℚ) ^ 1074 = top
    push_cast
    ring
  have hlow : ((RoundingInterval.of x).low : ℚ) =
      (4 * x.significand - x.below) * 2 ^ x.exponent.toNat := by
    have hle : x.below ≤ 4 * x.significand := by
      have := x.below_pos
      omega
    show (((4 * x.significand - x.below) * Nat.pow 2 x.exponent.toNat : Nat) : ℚ) = _
    rw [Nat.cast_mul, cast_nat_pow_two, Nat.cast_sub hle]
    push_cast
    rfl
  have hhigh : ((RoundingInterval.of x).high : ℚ) =
      (4 * x.significand + 2) * 2 ^ x.exponent.toNat := by
    show (((4 * x.significand + 2) * Nat.pow 2 x.exponent.toNat : Nat) : ℚ) = _
    rw [Nat.cast_mul, cast_nat_pow_two]
    push_cast
    rfl
  have hclosed : (RoundingInterval.of x).isClosed = true ↔ x.significand % 2 = 0 :=
    decide_eq_true_iff
  rw [RoundingInterval.holds_iff, near_iff_bounds, hlow, hhigh, hunit, hclosed]
  simp only [mul_le_mul_iff_left₀ hup, mul_lt_mul_iff_left₀ hup]
  exact ⟨fun hinside => ⟨hq, hinside⟩, And.right⟩

theorem dvd_last (x : Binary64) {e : ℤ} (h : e ≤ -(-x.exponent).toNat) :
    ((RoundingInterval.of x).inUnitsOf e).unit ∣ ((RoundingInterval.of x).inUnitsOf e).value := by
  have hzero : e.toNat = 0 := by omega
  have hplaces : (-x.exponent).toNat ≤ (-e).toNat := by omega
  show 4 * 2 ^ (-x.exponent).toNat * 10 ^ e.toNat ∣
    4 * x.significand * 2 ^ x.exponent.toNat * 10 ^ (-e).toNat
  rw [hzero, pow_zero, mul_one]
  apply mul_dvd_mul
  · exact Dvd.intro _ (Nat.mul_assoc _ _ _).symm
  · exact (pow_dvd_pow 2 hplaces).trans (pow_dvd_pow_of_dvd (by decide) _)

theorem shortest_eq (h : x.isZero = false) : x.shortest = (RoundingInterval.of x).search
    ((-x.exponent).toNat + ((RoundingInterval.of x).decade + 1).toNat)
    (RoundingInterval.of x).decade := by
  unfold shortest
  rw [if_neg (Bool.eq_false_iff.mp h)]

theorem near_shortest (h : x.isZero = false) : x.Near x.shortest.value := by
  have hsearch := RoundingInterval.holds_search (holds_value h) x.unit_ne_zero
    ((-x.exponent).toNat + ((RoundingInterval.of x).decade + 1).toNat)
    (RoundingInterval.of x).decade
    (x.dvd_last (by push_cast; omega))
  rw [← shortest_eq h] at hsearch
  exact (holds_iff_near (significand_ne_zero h) x.shortest.value_nonneg).mp hsearch

theorem significand_of_isZero (h : x.isZero = true) : x.significand = 0 := by
  unfold isZero at h
  rw [Bool.and_eq_true, decide_eq_true_iff, decide_eq_true_iff] at h
  unfold significand
  rw [if_pos h.1, h.2]

theorem shortest_of_isZero (h : x.isZero = true) : x.shortest = ⟨0, 0⟩ := if_pos h

theorem value_shortest_of_isZero (h : x.isZero = true) : x.shortest.value = 0 := by
  rw [shortest_of_isZero h]
  exact zero_mul _

/-- The shortest decimal of a finite number rounds to it. -/
theorem round_shortest (hfinite : x.exponentField < 2047) :
    round x.shortest.value = x.magnitude := by
  cases hzero : x.isZero with
  | false => exact (near_shortest hzero).round_eq hfinite
  | true =>
    have hsignificand := significand_of_isZero hzero
    have hnear : x.Near 0 := by
      refine ⟨le_refl 0, ?_, ?_, .inl (by rw [hsignificand])⟩
      · rw [hsignificand]
        simp
      · rw [hsignificand]
        simp
    rw [value_shortest_of_isZero hzero, hnear.round_eq hfinite]

def negate (x : Binary64) : Binary64 := ⟨x.bits + 0x8000000000000000⟩

theorem toNat_bits (x : Binary64) :
    x.bits.toNat = (if x.isNegative then 2048 * leadingOne else 0) +
      x.exponentField * leadingOne + x.fraction := by
  have hlt := x.bits.toNat_lt
  unfold isNegative exponentField fraction leadingOne
  split
  · rename_i hsign
    rw [decide_eq_true_iff] at hsign
    omega
  · rename_i hsign
    rw [decide_eq_true_iff] at hsign
    omega

theorem exponentField_lt (x : Binary64) : x.exponentField < 2048 := Nat.mod_lt _ (by decide)

theorem toNat_bits_magnitude (x : Binary64) :
    x.magnitude.bits.toNat = x.exponentField * leadingOne + x.fraction := by
  have hfield := Nat.mul_le_mul_right leadingOne (show x.exponentField ≤ 2047 from
    Nat.le_of_lt_succ x.exponentField_lt)
  have hfraction := x.fraction_lt
  unfold magnitude
  rw [UInt64.toNat_ofNat', Nat.mod_eq_of_lt]
  have htop : 2047 * leadingOne + leadingOne < 2 ^ 64 := by decide
  omega

theorem eq_magnitude (x : Binary64) :
    x = if x.isNegative then x.magnitude.negate else x.magnitude := by
  have hbits := x.toNat_bits
  have hmagnitude := x.toNat_bits_magnitude
  have hlt := x.bits.toNat_lt
  split
  · rename_i hsign
    rw [if_pos hsign] at hbits
    have htop : (0x8000000000000000 : UInt64).toNat = 2048 * leadingOne := rfl
    rw [negate, Binary64.mk.injEq, ← UInt64.toNat_inj, UInt64.toNat_add, hmagnitude, htop,
      Nat.mod_eq_of_lt]
    · omega
    · omega
  · rename_i hsign
    rw [if_neg hsign] at hbits
    rw [Binary64.mk.injEq, ← UInt64.toNat_inj, hmagnitude]
    omega

theorem exponentField_magnitude (x : Binary64) :
    x.magnitude.exponentField = x.exponentField := by
  have hpos : 0 < leadingOne := by decide
  show x.magnitude.bits.toNat / leadingOne % 2048 = x.exponentField
  rw [toNat_bits_magnitude, Nat.mul_comm, Nat.mul_add_div hpos, Nat.div_eq_of_lt x.fraction_lt,
    Nat.add_zero, Nat.mod_eq_of_lt x.exponentField_lt]

theorem exponentField_lt_of_finite {x : Binary64} (hnan : x.isNaN = false)
    (hinfinite : x.isInfinite = false) : x.exponentField < 2047 := by
  refine lt_of_le_of_ne (Nat.le_of_lt_succ x.exponentField_lt) fun hfield => ?_
  simp only [isNaN, isInfinite, hfield, decide_true, Bool.true_and, decide_eq_false_iff_not,
    not_not] at hnan hinfinite
  exact hinfinite hnan

theorem isNaN_eq_false {x : Binary64} (h : x.exponentField < 2047) : x.isNaN = false := by
  unfold isNaN
  rw [decide_eq_false (ne_of_lt h), Bool.false_and]

theorem isInfinite_eq_false {x : Binary64} (h : x.exponentField < 2047) :
    x.isInfinite = false := by
  unfold isInfinite
  rw [decide_eq_false (ne_of_lt h), Bool.false_and]

end Binary64

end ExtensionHeader
