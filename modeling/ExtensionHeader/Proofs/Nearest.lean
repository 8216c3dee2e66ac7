import ExtensionHeader.Proofs.Rounding
import Mathlib.Algebra.Order.Ring.Abs

/-! What it means that a binary64 number is the nearest one. Rounding is exact when it gives a
number that no other number with 53 significant bits is nearer to, and of two equally near ones the
one with the even significand. The interval of a number holds just what is rounded to it so. -/
namespace ExtensionHeader

section distance

variable {q x y : ℚ}

theorem abs_sub_le_iff_of_lt (h : x < y) : |q - x| ≤ |q - y| ↔ 2 * q ≤ x + y := by
  rw [← sq_le_sq]
  constructor
  · intro hle
    nlinarith
  · intro hle
    nlinarith

theorem abs_sub_le_iff_of_gt (h : y < x) : |q - x| ≤ |q - y| ↔ x + y ≤ 2 * q := by
  rw [← sq_le_sq]
  constructor
  · intro hle
    nlinarith
  · intro hle
    nlinarith

theorem abs_sub_lt_iff_of_lt (h : x < y) : |q - x| < |q - y| ↔ 2 * q < x + y := by
  rw [← not_le, abs_sub_le_iff_of_gt h, not_le, add_comm]

theorem abs_sub_lt_iff_of_gt (h : y < x) : |q - x| < |q - y| ↔ x + y < 2 * q := by
  rw [← not_le, abs_sub_le_iff_of_lt h, not_le, add_comm]

end distance

theorem nearestEven_spec {q : ℚ} (hq : 0 ≤ q) :
    (nearestEven q : ℚ) - 1 / 2 ≤ q ∧ q ≤ nearestEven q + 1 / 2 ∧
      (nearestEven q % 2 = 0 ∨ (nearestEven q : ℚ) - 1 / 2 < q ∧ q < nearestEven q + 1 / 2) := by
  have hfloor : (⌊q⌋₊ : ℚ) ≤ q := Nat.floor_le hq
  have hlt : q < ⌊q⌋₊ + 1 := Nat.lt_floor_add_one q
  unfold nearestEven
  dsimp only
  split
  · rename_i hdown
    rcases hdown with hnear | ⟨htie, heven⟩
    · exact ⟨by linarith, by linarith, .inr ⟨by linarith, by linarith⟩⟩
    · exact ⟨by linarith, by linarith, .inl heven⟩
  · rename_i hup
    rw [not_or, not_lt] at hup
    obtain ⟨hfar, htie⟩ := hup
    push_cast
    refine ⟨by linarith, by linarith, ?_⟩
    rcases lt_or_eq_of_le hfar with hfar | htie'
    · exact .inr ⟨by linarith, by linarith⟩
    · have hodd : ¬ ⌊q⌋₊ % 2 = 0 := fun heven => htie ⟨htie'.symm, heven⟩
      exact .inl (by omega)

namespace Binary64

/-- Numbers with 53 significant bits above the last place of all. The exponent is not bounded from
above, since a number is rounded first and is too large only then. -/
def Representable (y : ℚ) : Prop := ∃ (m : Nat) (k : ℤ), m < 2 ^ 53 ∧ -1074 ≤ k ∧ y = m * 2 ^ k

def value (x : Binary64) : ℚ := x.significand * 2 ^ x.exponent

/-- No number is nearer to `q`, and if another one is as near, this one has an even significand. -/
structure Nearest (x : Binary64) (q : ℚ) : Prop where
  least : ∀ y, Representable y → |q - x.value| ≤ |q - y|
  even : ∀ y, Representable y → |q - y| = |q - x.value| → y ≠ x.value → x.significand % 2 = 0

variable {x : Binary64} {q : ℚ}

def ulp (x : Binary64) : ℚ := 2 ^ x.exponent

theorem value_eq (x : Binary64) : x.value = x.significand * x.ulp := rfl

theorem ulp_pos (x : Binary64) : 0 < x.ulp := zpow_pos (by norm_num) _

theorem value_nonneg (x : Binary64) : 0 ≤ x.value :=
  mul_nonneg (Nat.cast_nonneg _) x.ulp_pos.le

theorem exponent_eq (x : Binary64) : x.exponent = x.shift - 1074 := by
  unfold exponent shift
  omega

theorem neg_le_exponent (x : Binary64) : -1074 ≤ x.exponent := by
  rw [exponent_eq]
  omega

theorem below_cases (x : Binary64) : x.below = 1 ∨ x.below = 2 := by
  have hbelow := x.below_pos
  omega

def previous (x : Binary64) : ℚ := (x.significand - x.below / 2) * x.ulp

def next (x : Binary64) : ℚ := (x.significand + 1) * x.ulp

theorem previous_lt (x : Binary64) : x.previous < x.value := by
  have hbelow : (0 : ℚ) < x.below := by exact_mod_cast x.below_pos.1
  have hulp := x.ulp_pos
  unfold previous
  rw [value_eq]
  gcongr
  linarith

theorem lt_next (x : Binary64) : x.value < x.next := by
  have hulp := x.ulp_pos
  unfold next
  rw [value_eq]
  gcongr
  linarith

theorem scaled_eq (x : Binary64) (q : ℚ) : q * 2 ^ 1074 / 2 ^ x.shift = q / x.ulp := by
  unfold ulp
  rw [exponent_eq, zpow_sub₀ (by norm_num), zpow_natCast, div_div_eq_mul_div]
  rfl

/-- The interval reaches half the way to the next numbers. -/
theorem near_iff : x.Near q ↔
    0 ≤ q ∧ x.previous + x.value ≤ 2 * q ∧ 2 * q ≤ x.value + x.next ∧
      (x.significand % 2 = 0 ∨ x.previous + x.value < 2 * q ∧ 2 * q < x.value + x.next) := by
  have hulp := x.ulp_pos
  have hlow : x.previous + x.value = (4 * x.significand - x.below) / 2 * x.ulp := by
    unfold previous
    rw [value_eq]
    ring
  have hhigh : x.value + x.next = (4 * x.significand + 2) / 2 * x.ulp := by
    unfold next
    rw [value_eq]
    ring
  have hq : 2 * q = 4 * (q / x.ulp) / 2 * x.ulp := by
    field_simp
    ring
  have hle (a b : ℚ) : a / 2 * x.ulp ≤ b / 2 * x.ulp ↔ a ≤ b := by
    rw [mul_le_mul_iff_left₀ hulp, div_le_div_iff_of_pos_right two_pos]
  have hlt (a b : ℚ) : a / 2 * x.ulp < b / 2 * x.ulp ↔ a < b := by
    rw [mul_lt_mul_iff_left₀ hulp, div_lt_div_iff_of_pos_right two_pos]
  rw [near_iff_bounds, scaled_eq, hlow, hhigh, hq, hle, hle, hlt, hlt]

theorem Near.convex {a b : ℚ} (ha : x.Near a) (hb : x.Near b) (haq : a ≤ q) (hqb : q ≤ b) :
    x.Near q := by
  rw [near_iff] at ha hb ⊢
  obtain ⟨hnonneg, hlow, -, hinside⟩ := ha
  obtain ⟨-, -, hhigh, hinside'⟩ := hb
  refine ⟨by linarith, by linarith, by linarith, ?_⟩
  rcases hinside with heven | ⟨hlt, -⟩
  · exact .inl heven
  · refine hinside'.imp_right ?_
    rintro ⟨-, hgt⟩
    exact ⟨by linarith, by linarith⟩

theorem exists_eq_mul_ulp {m : Nat} {k : ℤ} (h : x.exponent ≤ k) :
    ∃ n : Nat, (m : ℚ) * 2 ^ k = n * x.ulp := by
  refine ⟨m * 2 ^ (k - x.exponent).toNat, ?_⟩
  have hsum : (k - x.exponent).toNat + x.exponent = k := by omega
  unfold ulp
  push_cast
  rw [mul_assoc, ← zpow_natCast, ← zpow_add₀ (by norm_num), hsum]

theorem zpow_exponent_sub_one (x : Binary64) : (2 : ℚ) ^ (x.exponent - 1) = x.ulp / 2 := by
  unfold ulp
  rw [zpow_sub_one₀ (by norm_num), div_eq_mul_inv]

theorem le_previous (h : x.shift ≠ 0) : (2 ^ 53 - 1) * 2 ^ (x.exponent - 1) ≤ x.previous := by
  have hulp := x.ulp_pos
  have hbelow := x.cast_below_le
  have hones : (2 ^ 53 - 1 : ℚ) / 2 ≤ x.significand - x.below / 2 := by
    rcases Nat.eq_or_lt_of_le (leadingOne_le_significand h) with heq | hlt
    · have hone : x.below = 1 := (below_eq_one_iff x).mpr ⟨heq.symm, h⟩
      rw [hone, ← heq]
      norm_num [leadingOne]
    · have hgreater : 2 ^ 52 + 1 ≤ x.significand := hlt
      have hcast : (2 ^ 52 + 1 : ℚ) ≤ x.significand := by exact_mod_cast hgreater
      linarith
  calc (2 ^ 53 - 1) * 2 ^ (x.exponent - 1) = (2 ^ 53 - 1) / 2 * x.ulp := by
        rw [zpow_exponent_sub_one]
        ring
    _ ≤ x.previous := by
        unfold previous
        gcongr

/-- There are no other numbers between a number and the next ones. -/
theorem Representable.cases {y : ℚ} (hy : Representable y) :
    y ≤ x.previous ∨ y = x.value ∨ x.next ≤ y := by
  obtain ⟨m, k, hm, hk, rfl⟩ := hy
  have hulp := x.ulp_pos
  by_cases hplace : x.exponent ≤ k
  · obtain ⟨n, hn⟩ := exists_eq_mul_ulp (m := m) hplace
    rw [hn]
    rcases Nat.lt_trichotomy n x.significand with hlt | rfl | hgt
    · left
      have hcast : (n : ℚ) + 1 ≤ x.significand := by exact_mod_cast hlt
      have hbelow := x.cast_below_le
      unfold previous
      gcongr
      linarith
    · exact .inr (.inl rfl)
    · right
      right
      have hcast : (x.significand : ℚ) + 1 ≤ n := by exact_mod_cast hgt
      unfold next
      gcongr
  · left
    have hshift : x.shift ≠ 0 := by
      rw [exponent_eq] at hplace
      omega
    have hones : (m : ℚ) ≤ 2 ^ 53 - 1 := by
      have hcast : (m : ℚ) + 1 ≤ 2 ^ 53 := by exact_mod_cast hm
      linarith
    calc (m : ℚ) * 2 ^ k ≤ (2 ^ 53 - 1) * 2 ^ (x.exponent - 1) := by
          have hpos : (0 : ℚ) < 2 ^ k := zpow_pos (by norm_num) k
          gcongr
          · norm_num
          · omega
      _ ≤ x.previous := le_previous hshift

theorem significand_lt_two_pow (x : Binary64) : x.significand < 2 ^ 53 := x.significand_lt

theorem representable_next (x : Binary64) : Representable x.next := by
  have hexponent := x.neg_le_exponent
  have hnext : x.next = ((x.significand + 1 : Nat) : ℚ) * 2 ^ x.exponent := by
    unfold next ulp
    push_cast
    rfl
  rcases Nat.lt_or_eq_of_le (Nat.succ_le_of_lt x.significand_lt_two_pow) with hlt | heq
  · exact ⟨_, x.exponent, hlt, hexponent, hnext⟩
  · refine ⟨1, x.exponent + 53, by norm_num, by omega, ?_⟩
    rw [hnext, ← Nat.succ_eq_add_one, heq, zpow_add₀ (by norm_num)]
    push_cast
    ring

theorem representable_previous (h : x.significand ≠ 0) : Representable x.previous := by
  have hexponent := x.neg_le_exponent
  rcases x.below_cases with hone | htwo
  · obtain ⟨hsignificand, hshift⟩ := (below_eq_one_iff x).mp hone
    refine ⟨2 ^ 53 - 1, x.exponent - 1, by norm_num, ?_, ?_⟩
    · rw [exponent_eq]
      omega
    · unfold previous
      rw [zpow_exponent_sub_one, hone, hsignificand]
      norm_num [leadingOne]
      ring
  · obtain ⟨m, hm⟩ := Nat.exists_eq_succ_of_ne_zero h
    have hlt := x.significand_lt_two_pow
    refine ⟨m, x.exponent, by omega, hexponent, ?_⟩
    unfold previous ulp
    rw [htwo, hm]
    push_cast
    ring

theorem Near.nearest (h : x.Near q) : x.Nearest q := by
  obtain ⟨hq, hlow, hhigh, hstrict⟩ := near_iff.mp h
  have hprevious := x.previous_lt
  have hnext := x.lt_next
  constructor
  · intro y hy
    rcases hy.cases (x := x) with hlt | rfl | hgt
    · rw [abs_sub_le_iff_of_gt (by linarith)]
      linarith
    · exact le_refl _
    · rw [abs_sub_le_iff_of_lt (by linarith)]
      linarith
  · intro y hy htie hne
    refine hstrict.resolve_right ?_
    rintro ⟨hlow', hhigh'⟩
    rcases hy.cases (x := x) with hlt | heq | hgt
    · have hmiddle := (abs_sub_le_iff_of_lt (by linarith : y < x.value)).mp htie.le
      linarith
    · exact hne heq
    · have hmiddle := (abs_sub_le_iff_of_gt (by linarith : x.value < y)).mp htie.le
      linarith

/-- A number with an odd significand wins no tie. -/
theorem Nearest.lt_of_odd (h : x.Nearest q) (hodd : ¬ x.significand % 2 = 0) {y : ℚ}
    (hy : Representable y) (hne : y ≠ x.value) : |q - x.value| < |q - y| :=
  lt_of_le_of_ne (h.least y hy) fun htie => hodd (h.even y hy htie.symm hne)

/-- The next numbers are the ones to compare with. -/
theorem Nearest.near (hq : 0 ≤ q) (h : x.Nearest q) : x.Near q := by
  have hprevious := x.previous_lt
  have hnext := x.lt_next
  by_cases heven : x.significand % 2 = 0
  · have hhigh := (abs_sub_le_iff_of_lt hnext).mp (h.least _ x.representable_next)
    refine near_iff.mpr ⟨hq, ?_, hhigh, .inl heven⟩
    by_cases hzero : x.significand = 0
    · have hvalue : x.value = 0 := by
        rw [value_eq, hzero, Nat.cast_zero, zero_mul]
      linarith
    · have hlow := (abs_sub_le_iff_of_gt hprevious).mp (h.least _ (representable_previous hzero))
      linarith
  · have hrepresentable := representable_previous (x := x) (by omega)
    have hlow := (abs_sub_lt_iff_of_gt hprevious).mp (h.lt_of_odd heven hrepresentable hprevious.ne)
    have hhigh := (abs_sub_lt_iff_of_lt hnext).mp (h.lt_of_odd heven x.representable_next hnext.ne')
    exact near_iff.mpr ⟨hq, by linarith, hhigh.le, .inr ⟨by linarith, hhigh⟩⟩

/-! What is rounded to a number lies in its interval. -/

theorem fraction_magnitude (x : Binary64) : x.magnitude.fraction = x.fraction := by
  show x.magnitude.bits.toNat % leadingOne = x.fraction
  rw [toNat_bits_magnitude, Nat.add_comm, Nat.add_mul_mod_self_right, Nat.mod_eq_of_lt x.fraction_lt]

theorem significand_magnitude (x : Binary64) : x.magnitude.significand = x.significand := by
  unfold significand
  rw [exponentField_magnitude, fraction_magnitude]

theorem exponent_magnitude (x : Binary64) : x.magnitude.exponent = x.exponent := by
  unfold exponent
  rw [exponentField_magnitude]

theorem below_magnitude (x : Binary64) : x.magnitude.below = x.below := by
  unfold below
  rw [exponentField_magnitude, fraction_magnitude]

theorem value_magnitude (x : Binary64) : x.magnitude.value = x.value := by
  unfold value
  rw [significand_magnitude, exponent_magnitude]

theorem near_magnitude : x.magnitude.Near q ↔ x.Near q := by
  simp only [near_iff, previous, next, ulp, value_magnitude, significand_magnitude,
    exponent_magnitude, below_magnitude]

theorem exists_of_place {s m : Nat} (hm : m < 2 * leadingOne) (hplace : s = 0 ∨ leadingOne ≤ m)
    (htop : s * leadingOne + m < 2047 * leadingOne) :
    ∃ x : Binary64, x.exponentField < 2047 ∧ x.shift = s ∧ x.significand = m := by
  let x : Binary64 := ⟨UInt64.ofNat (s * leadingOne + m)⟩
  have hlt : s * leadingOne + m < 2 ^ 64 := by
    have : 2047 * leadingOne < 2 ^ 64 := by decide
    omega
  have hbits : x.bits.toNat = s * leadingOne + m := UInt64.toNat_ofNat_of_lt' hlt
  have hfield : x.exponentField = s + m / leadingOne := by
    unfold exponentField leadingOne at *
    omega
  have hfraction : x.fraction = m % leadingOne := by
    unfold fraction leadingOne at *
    omega
  refine ⟨x, ?_, ?_, ?_⟩
  · unfold leadingOne at *
    omega
  · unfold shift leadingOne at *
    omega
  · unfold significand leadingOne at *
    split <;> omega

theorem place_spec {v : ℚ} (hv : 0 ≤ v) :
    (⌊v⌋₊.log2 - 52 = 0 ∨ 2 ^ (52 + (⌊v⌋₊.log2 - 52)) ≤ v) ∧ v < 2 ^ (53 + (⌊v⌋₊.log2 - 52)) := by
  constructor
  · by_cases hlog : ⌊v⌋₊.log2 ≤ 52
    · exact .inl (Nat.sub_eq_zero_of_le hlog)
    · right
      have hne : ⌊v⌋₊ ≠ 0 := by
        intro hzero
        rw [hzero, Nat.log2_zero] at hlog
        omega
      rw [show 52 + (⌊v⌋₊.log2 - 52) = ⌊v⌋₊.log2 by omega]
      have hle := (Nat.le_floor_iff hv).mp (Nat.log2_self_le hne)
      exact_mod_cast hle
  · have hlt : ⌊v⌋₊ < 2 ^ (53 + (⌊v⌋₊.log2 - 52)) :=
      lt_of_lt_of_le Nat.lt_log2_self (Nat.pow_le_pow_right two_pos (by omega))
    have hcast := (Nat.floor_lt hv).mp hlt
    exact_mod_cast hcast

theorem near_of_units {r : ℚ} (hq : 0 ≤ q) (hr : q * 2 ^ 1074 / 2 ^ x.shift = r)
    (hplace : x.shift = 0 ∨ 2 ^ 52 ≤ r) (hlow : (x.significand : ℚ) - 1 / 2 ≤ r)
    (hhigh : r ≤ x.significand + 1 / 2)
    (heven : x.significand % 2 = 0 ∨
      (x.significand : ℚ) - 1 / 2 < r ∧ r < x.significand + 1 / 2) : x.Near q := by
  rcases x.below_cases with hone | htwo
  · obtain ⟨hsignificand, hshift⟩ := (below_eq_one_iff x).mp hone
    have hleast : (x.significand : ℚ) ≤ r := by
      have hbits := hplace.resolve_left hshift
      rw [hsignificand]
      norm_num [leadingOne] at hbits ⊢
      exact hbits
    refine ⟨hq, ?_, ?_, .inl (by rw [hsignificand]; decide)⟩
    · rw [hr, hone, Nat.cast_one]
      linarith
    · rw [hr]
      linarith
  · refine ⟨hq, ?_, ?_, heven.imp_right ?_⟩
    · rw [hr, htwo, Nat.cast_ofNat]
      linarith
    · rw [hr]
      linarith
    · rintro ⟨hgreater, hless⟩
      rw [hr, htwo, Nat.cast_ofNat]
      exact ⟨by linarith, by linarith⟩

/-- What is rounded up to a significand with one place more is near to the least number with the
next exponent. -/
theorem exists_near_of_overflow {r : ℚ} {s : Nat} (hq : 0 ≤ q) (hr : q * 2 ^ 1074 / 2 ^ s = r)
    (hlow : 2 ^ 53 - 1 / 2 ≤ r) (hhigh : r < 2 ^ 53)
    (hfinite : s * leadingOne + 2 ^ 53 < 2047 * leadingOne) :
    ∃ x : Binary64, x.exponentField < 2047 ∧ x.Near q := by
  have hnext : q * 2 ^ 1074 / 2 ^ (s + 1) = r / 2 := by
    rw [pow_succ 2 s, ← div_div, hr]
  have hsum : (s + 1) * leadingOne + leadingOne = s * leadingOne + 2 ^ 53 := by
    unfold leadingOne
    omega
  obtain ⟨x, hx, hshift, hsignificand⟩ :=
    exists_of_place (s := s + 1) (m := leadingOne) (by decide) (.inr (le_refl _)) (by omega)
  have hone : x.below = 1 := (below_eq_one_iff x).mpr ⟨hsignificand, by omega⟩
  refine ⟨x, hx, hq, ?_, ?_, .inl (by rw [hsignificand]; decide)⟩
  · rw [hshift, hnext, hone, hsignificand]
    norm_num [leadingOne] at hlow ⊢
    linarith
  · rw [hshift, hnext, hsignificand]
    norm_num [leadingOne] at hhigh ⊢
    linarith

/-- Every number that is not rounded to infinity lies in the interval of what it is rounded to. -/
theorem exists_near_of_round (hq : 0 ≤ q) (h : (round q).bits.toNat < 2047 * leadingOne) :
    ∃ x : Binary64, x.exponentField < 2047 ∧ x.Near q := by
  obtain ⟨hplace, hbits⟩ := place_spec (v := q * 2 ^ 1074) (by positivity)
  have htop : (round q).bits.toNat = min
      ((⌊q * 2 ^ 1074⌋₊.log2 - 52) * leadingOne +
        nearestEven (q * 2 ^ 1074 / 2 ^ (⌊q * 2 ^ 1074⌋₊.log2 - 52))) (2047 * leadingOne) :=
    UInt64.toNat_ofNat_of_lt' (lt_of_le_of_lt (Nat.min_le_right _ _) (by decide))
  generalize ⌊q * 2 ^ 1074⌋₊.log2 - 52 = s at hplace hbits htop
  have hpos : (0 : ℚ) < 2 ^ s := by positivity
  rw [pow_add, ← le_div_iff₀ hpos] at hplace
  rw [pow_add, ← div_lt_iff₀ hpos] at hbits
  have hnonneg : 0 ≤ q * 2 ^ 1074 / 2 ^ s := by positivity
  obtain ⟨hlow, hhigh, heven⟩ := nearestEven_spec hnonneg
  generalize hr : q * 2 ^ 1074 / 2 ^ s = r at *
  generalize nearestEven r = m at *
  have hfinite : s * leadingOne + m < 2047 * leadingOne := by omega
  have hle : m < 2 ^ 53 + 1 := by
    have hcast : (m : ℚ) < 2 ^ 53 + 1 := by linarith
    exact_mod_cast hcast
  rcases Nat.lt_or_eq_of_le (Nat.le_of_lt_succ hle) with hlt | rfl
  · have hone : s = 0 ∨ leadingOne ≤ m := by
      refine hplace.imp_right fun hplace => ?_
      have hcast : (2 ^ 52 : ℚ) < m + 1 := by linarith
      have hm : 2 ^ 52 < m + 1 := by exact_mod_cast hcast
      exact Nat.le_of_lt_succ hm
    obtain ⟨x, hx, rfl, rfl⟩ := exists_of_place hlt hone hfinite
    exact ⟨x, hx, near_of_units hq hr hplace hlow hhigh heven⟩
  · push_cast at hlow
    exact exists_near_of_overflow hq hr hlow hbits hfinite

theorem round_eq_iff (hfinite : x.exponentField < 2047) (hq : 0 ≤ q) :
    round q = x.magnitude ↔ x.Near q := by
  refine ⟨fun h => ?_, Near.round_eq hfinite⟩
  have hbits : (round q).bits.toNat < 2047 * leadingOne := by
    have hfraction := x.fraction_lt
    rw [h, toNat_bits_magnitude]
    unfold leadingOne at *
    omega
  obtain ⟨y, hy, hnear⟩ := exists_near_of_round hq hbits
  rw [← near_magnitude, ← h, hnear.round_eq hy, near_magnitude]
  exact hnear

theorem round_eq_iff_nearest (hfinite : x.exponentField < 2047) (hq : 0 ≤ q) :
    round q = x.magnitude ↔ x.Nearest q :=
  (round_eq_iff hfinite hq).trans ⟨Near.nearest, Nearest.near hq⟩

end Binary64

end ExtensionHeader
