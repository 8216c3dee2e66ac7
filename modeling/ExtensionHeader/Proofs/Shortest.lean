import ExtensionHeader.Proofs.Nearest
import ExtensionHeader.Proofs.Reading.Numeral
import Mathlib.Algebra.Order.Floor.Semifield
import Mathlib.Data.Nat.Cast.Order.Field

/-! The search for the shortest decimal. The grids of one, two and more significant digits are
nested, and a grid has a point in an interval if one of the two points next to the number is in it.
So a decimal with fewer digits than the search has found lies on a grid that was tried in vain. -/
namespace ExtensionHeader

section digits

theorem toDigits_bounds {n : Nat} (h : n ≠ 0) :
    10 ^ ((Nat.toDigits 10 n).length - 1) ≤ n ∧ n < 10 ^ (Nat.toDigits 10 n).length := by
  have hpos := Nat.length_toDigits_pos (b := 10) (n := n)
  refine ⟨?_, (Nat.length_toDigits_le_iff (by decide) hpos).mp (le_refl _)⟩
  by_cases hone : (Nat.toDigits 10 n).length = 1
  · rw [hone]
    exact Nat.one_le_iff_ne_zero.mpr h
  · by_contra hlt
    have hle := (Nat.length_toDigits_le_iff (b := 10) (by decide) (by omega)).mpr (not_le.mp hlt)
    omega

/-- The decade of a number `v` is counted by the digits before the point when it is moved. -/
theorem length_toDigits_floor {v : ℚ} {places : Nat} (h : 1 ≤ v * 10 ^ places) :
    (10 : ℚ) ^ (((Nat.toDigits 10 ⌊v * 10 ^ places⌋₊).length : ℤ) - (places + 1)) ≤ v ∧
      v < 10 ^ (((Nat.toDigits 10 ⌊v * 10 ^ places⌋₊).length : ℤ) - (places + 1) + 1) := by
  obtain ⟨hlow, hhigh⟩ := toDigits_bounds (Nat.floor_pos.mpr h).ne'
  have hlength := Nat.length_toDigits_pos (b := 10) (n := ⌊v * 10 ^ places⌋₊)
  have hle := (Nat.le_floor_iff (by linarith)).mp hlow
  have hlt := (Nat.floor_lt (by linarith)).mp hhigh
  generalize (Nat.toDigits 10 ⌊v * 10 ^ places⌋₊).length = n at *
  have hplaces : (0 : ℚ) < 10 ^ (places : ℤ) := zpow_pos (by norm_num) _
  rw [← zpow_natCast] at hle hlt
  push_cast at hle hlt
  rw [← zpow_natCast] at hle hlt
  constructor
  · refine le_of_mul_le_mul_right (le_trans (le_of_eq ?_) hle) hplaces
    rw [← zpow_add₀ (by norm_num)]
    congr 1
    omega
  · refine lt_of_mul_lt_mul_right (lt_of_lt_of_eq hlt ?_) hplaces.le
    rw [← zpow_add₀ (by norm_num)]
    congr 1
    omega

theorem toDigits_mul_pow {m : Nat} (h : m ≠ 0) (zeros : Nat) :
    Nat.toDigits 10 (m * 10 ^ zeros) = Nat.toDigits 10 m ++ List.replicate zeros '0' := by
  induction zeros with
  | zero => rw [pow_zero, mul_one, List.replicate_zero, List.append_nil]
  | succ zeros ih =>
    have hpos : 0 < m * 10 ^ zeros := by positivity
    have hlast := Nat.toDigits_append_toDigits (b := 10) (d := 0) (by decide) hpos (by decide)
    rw [List.replicate_succ', ← List.append_assoc, ← ih, pow_succ, ← mul_assoc, mul_comm _ 10]
    exact hlast.symm

end digits

namespace Decimal

variable {d : Decimal}

theorem length_digits_le {m z k : Nat} (hk : 0 < k) (hm : m < 10 ^ k)
    (h : d.coefficient = m * 10 ^ z) : d.digits.length ≤ k := by
  by_cases hzero : m = 0
  · have hdigits : d.digits = ['0'] := by
      unfold digits
      rw [h, hzero, zero_mul]
      decide
    rw [hdigits]
    exact hk
  · have hlength := (Nat.length_toDigits_le_iff (b := 10) (by decide) hk).mpr hm
    have hzeros : ∀ c ∈ List.replicate z '0', decide (c = '0') = true :=
      fun c hc => decide_eq_true (List.eq_of_mem_replicate hc)
    unfold digits
    rw [h, toDigits_mul_pow hzero]
    dsimp only
    rw [List.reverse_append, List.reverse_replicate, List.dropWhile_append_of_pos hzeros]
    split
    · exact hk
    · rw [List.length_reverse]
      refine (List.length_dropWhile_le _ _).trans ?_
      rwa [List.length_reverse]

theorem leading_lt_iff (h : d.coefficient ≠ 0) (n : ℤ) : d.leading < n ↔ d.value < 10 ^ n := by
  obtain ⟨hlow, hhigh⟩ := toDigits_bounds h
  have hpos := Nat.length_toDigits_pos (b := 10) (n := d.coefficient)
  have hunit : (0 : ℚ) < 10 ^ d.exponent := zpow_pos (by norm_num) _
  have hle : (10 : ℚ) ^ d.leading ≤ d.value := by
    have hcast : (10 : ℚ) ^ ((Nat.toDigits 10 d.coefficient).length - 1) ≤ d.coefficient := by
      exact_mod_cast hlow
    have hsum : d.leading =
        (((Nat.toDigits 10 d.coefficient).length - 1 : Nat) : ℤ) + d.exponent := by
      unfold leading
      omega
    rw [hsum, zpow_add₀ (by norm_num), zpow_natCast]
    exact mul_le_mul_of_nonneg_right hcast hunit.le
  have hlt : d.value < 10 ^ (d.leading + 1) := by
    have hcast : (d.coefficient : ℚ) < 10 ^ (Nat.toDigits 10 d.coefficient).length := by
      exact_mod_cast hhigh
    have hsum : d.leading + 1 = ((Nat.toDigits 10 d.coefficient).length : ℤ) + d.exponent := by
      unfold leading
      omega
    rw [hsum, zpow_add₀ (by norm_num), zpow_natCast]
    exact mul_lt_mul_of_pos_right hcast hunit
  constructor
  · intro hleading
    exact hlt.trans_le (zpow_le_zpow_right₀ (by norm_num) hleading)
  · intro hvalue
    exact (zpow_lt_zpow_iff_right₀ (by norm_num)).mp (hle.trans_lt hvalue)

end Decimal

namespace RoundingInterval

variable {i : RoundingInterval}

theorem Holds.convex {a b q : ℚ} (ha : i.Holds a) (hb : i.Holds b) (haq : a ≤ q) (hqb : q ≤ b) :
    i.Holds q := by
  have hunit : (0 : ℚ) ≤ i.unit := Nat.cast_nonneg _
  have hlow : a * i.unit ≤ q * i.unit := mul_le_mul_of_nonneg_right haq hunit
  have hhigh : q * i.unit ≤ b * i.unit := mul_le_mul_of_nonneg_right hqb hunit
  refine ⟨ha.low.trans hlow, hhigh.trans hb.high, ?_⟩
  rcases ha.strict with hclosed | ⟨hgreater, -⟩
  · exact .inl hclosed
  · exact hb.strict.imp_right fun hless => ⟨hgreater.trans_le hlow, hhigh.trans_lt hless.2⟩

theorem contains_of_nearest?_eq_none (h : i.nearest? = none) :
    i.contains (i.value / i.unit) = false ∧ i.contains (i.value / i.unit + 1) = false := by
  unfold nearest? at h
  dsimp only at h
  split at h
  · contradiction
  · contradiction
  · contradiction
  · exact ⟨by assumption, by assumption⟩

theorem floor_bounds (i : RoundingInterval) : ((i.value / i.unit : Nat) : ℚ) ≤ i.value / i.unit ∧
    (i.value / i.unit : ℚ) ≤ (i.value / i.unit : Nat) + 1 := by
  refine ⟨Nat.cast_div_le, ?_⟩
  rw [← Nat.floor_div_eq_div (K := ℚ)]
  exact (Nat.lt_floor_add_one _).le

theorem not_holds_of_nearest? (hvalue : i.Holds (i.value / i.unit)) (h : i.nearest? = none)
    (n : Nat) : ¬ i.Holds n := by
  intro hn
  obtain ⟨hbelow, habove⟩ := contains_of_nearest?_eq_none h
  obtain ⟨hfloor, hnext⟩ := i.floor_bounds
  rw [Bool.eq_false_iff, ne_eq, contains_iff_holds] at hbelow habove
  push_cast at habove
  rcases Nat.lt_or_ge (i.value / i.unit) n with hlt | hge
  · exact habove (hvalue.convex hn hnext (by exact_mod_cast hlt))
  · exact hbelow (hn.convex hvalue (by exact_mod_cast hge) hfloor)

theorem value_inUnitsOf (i : RoundingInterval) (e : ℤ) :
    ((i.inUnitsOf e).value / (i.inUnitsOf e).unit : ℚ) * 10 ^ e = i.value / i.unit := by
  have hup : (10 : ℚ) ^ (-e).toNat ≠ 0 := by positivity
  show ((i.value * Nat.pow 10 (-e).toNat : Nat) : ℚ) / ((i.unit * Nat.pow 10 e.toNat : Nat) : ℚ) *
    10 ^ e = _
  rw [Nat.cast_mul, Nat.cast_mul, cast_nat_pow_ten, cast_nat_pow_ten, ← ten_zpow_mul e,
    ← mul_assoc, mul_div_mul_right _ _ hup, ← div_div, div_mul_cancel₀]
  exact (zpow_pos (by norm_num) e).ne'

theorem nearest?_eq_some {k : Nat} (h : i.nearest? = some k) :
    k = i.value / i.unit ∧
        (i.contains (i.value / i.unit + 1) = false ∨ 2 * (i.value % i.unit) < i.unit) ∨
      k = i.value / i.unit + 1 ∧
        (i.contains (i.value / i.unit) = false ∨ i.unit ≤ 2 * (i.value % i.unit)) := by
  unfold nearest? at h
  dsimp only at h
  split at h
  · rename_i hnext
    exact .inl ⟨(Option.some.inj h).symm, .inl hnext⟩
  · rename_i hfloor _
    exact .inr ⟨(Option.some.inj h).symm, .inl hfloor⟩
  · split at h
    · rename_i hlow
      exact .inl ⟨(Option.some.inj h).symm, .inr hlow⟩
    · rename_i hhigh
      exact .inr ⟨(Option.some.inj h).symm, .inr (not_lt.mp hhigh)⟩
  · contradiction

theorem two_mul_mod_lt_iff (hunit : i.unit ≠ 0) : 2 * (i.value % i.unit) < i.unit ↔
    2 * (i.value / i.unit : ℚ) < 2 * (i.value / i.unit : Nat) + 1 := by
  have hpos : (0 : ℚ) < i.unit := by exact_mod_cast Nat.pos_of_ne_zero hunit
  have hsum : (i.unit * (i.value / i.unit : Nat) + (i.value % i.unit : Nat) : ℚ) = i.value := by
    exact_mod_cast Nat.div_add_mod i.value i.unit
  rw [← mul_div_assoc, div_lt_iff₀ hpos, ← hsum, ← Nat.cast_lt (α := ℚ)]
  push_cast
  constructor
  · intro h
    linarith
  · intro h
    linarith

theorem closest_of_nearest? (hunit : i.unit ≠ 0) (hvalue : i.Holds (i.value / i.unit)) {k n : Nat}
    (h : i.nearest? = some k) (hn : i.Holds n) :
    |(i.value / i.unit : ℚ) - k| ≤ |(i.value / i.unit : ℚ) - n| := by
  have hmiddle := two_mul_mod_lt_iff hunit
  have hchosen := nearest?_eq_some h
  obtain ⟨hfloor, hnext⟩ := i.floor_bounds
  rw [Bool.eq_false_iff, Bool.eq_false_iff, ne_eq, ne_eq, contains_iff_holds, contains_iff_holds,
    ← not_lt, hmiddle, not_lt] at hchosen
  push_cast at hchosen
  generalize i.value / i.unit = floor at *
  generalize (i.value / i.unit : ℚ) = v at *
  rcases hchosen with ⟨rfl, hlow⟩ | ⟨rfl, hhigh⟩
  · rcases Nat.lt_trichotomy n k with hless | rfl | hgreater
    · have hcast : (n : ℚ) < k := by exact_mod_cast hless
      rw [abs_sub_le_iff_of_gt hcast]
      linarith
    · exact le_refl _
    · have hcast : (k : ℚ) + 1 ≤ n := by exact_mod_cast hgreater
      have hhalf := hlow.resolve_left (not_not.mpr (hvalue.convex hn hnext hcast))
      rw [abs_sub_le_iff_of_lt (by linarith)]
      linarith
  · push_cast
    rcases Nat.lt_trichotomy n (floor + 1) with hless | rfl | hgreater
    · have hcast : (n : ℚ) ≤ floor := by exact_mod_cast Nat.le_of_lt_succ hless
      have hhalf := hhigh.resolve_left (not_not.mpr (hn.convex hvalue hcast hfloor))
      rw [abs_sub_le_iff_of_gt (by linarith)]
      linarith
    · push_cast
      exact le_refl _
    · have hcast : (floor : ℚ) + 1 < n := by exact_mod_cast hgreater
      rw [abs_sub_le_iff_of_lt hcast]
      linarith

/-- The search ends on a grid after the coarser ones were tried in vain. -/
theorem search_spec (i : RoundingInterval) (steps : Nat) (e : ℤ) :
    ∃ j k : Nat, i.search steps e = ⟨k, e - j⟩ ∧
      ((i.inUnitsOf (e - j)).nearest? = some k ∨
        j = steps ∧ k = (i.inUnitsOf (e - j)).value / (i.inUnitsOf (e - j)).unit) ∧
      ∀ l < j, (i.inUnitsOf (e - l)).nearest? = none := by
  induction steps generalizing e with
  | zero =>
    refine ⟨0, (i.inUnitsOf e).value / (i.inUnitsOf e).unit, ?_, .inr ⟨rfl, ?_⟩, ?_⟩
    · rw [Nat.cast_zero, sub_zero]
      rfl
    · rw [Nat.cast_zero, sub_zero]
    · exact fun l hl => absurd hl (Nat.not_lt_zero l)
  | succ steps ih =>
    unfold search
    split
    · rename_i k hk
      refine ⟨0, k, ?_, .inl ?_, fun l hl => absurd hl (Nat.not_lt_zero l)⟩
      · rw [Nat.cast_zero, sub_zero]
      · rwa [Nat.cast_zero, sub_zero]
    · rename_i hnone
      obtain ⟨j, k, hsearch, hk, hvain⟩ := ih (e - 1)
      have hgrid (l : Nat) : e - 1 - (l : ℤ) = e - ((l + 1 : Nat) : ℤ) := by
        push_cast
        ring
      rw [hgrid] at hsearch hk
      refine ⟨j + 1, k, hsearch, hk.imp_right (And.imp_left (congrArg _)), fun l hl => ?_⟩
      cases l with
      | zero => rwa [Nat.cast_zero, sub_zero]
      | succ l =>
        rw [← hgrid]
        exact hvain l (Nat.lt_of_succ_lt_succ hl)

theorem decade_spec {places : Nat} (hplaces : places = 330)
    (h : 1 ≤ (i.value / i.unit : ℚ) * 10 ^ places) :
    (10 : ℚ) ^ i.decade ≤ i.value / i.unit ∧ (i.value / i.unit : ℚ) < 10 ^ (i.decade + 1) := by
  have hfloor : i.value * Nat.pow 10 places / i.unit = ⌊(i.value / i.unit : ℚ) * 10 ^ places⌋₊ := by
    rw [← Nat.floor_div_eq_div (K := ℚ), Nat.cast_mul, cast_nat_pow_ten, div_mul_eq_mul_div]
  have hdecade : i.decade = ((Nat.toDigits 10 (i.value * Nat.pow 10 places / i.unit)).length : ℤ) -
      (places + 1) := by
    unfold decade
    rw [← hplaces]
    omega
  rw [hdecade, hfloor]
  exact length_toDigits_floor h

end RoundingInterval

namespace Binary64

variable {x y : Binary64} {q : ℚ}

theorem near_value (x : Binary64) : x.Near x.value := by
  have hprevious := x.previous_lt
  have hnext := x.lt_next
  exact near_iff.mpr ⟨x.value_nonneg, by linarith, by linarith, .inr ⟨by linarith, by linarith⟩⟩

theorem value_of_isZero (h : x.isZero = true) : x.value = 0 := by
  rw [value_eq, significand_of_isZero h, Nat.cast_zero, zero_mul]

theorem one_le_significand (h : x.isZero = false) : (1 : ℚ) ≤ x.significand := by
  exact_mod_cast Nat.one_le_iff_ne_zero.mpr (significand_ne_zero h)

theorem not_near_zero (h : x.isZero = false) : ¬ x.Near 0 := by
  intro hnear
  have hbelow := x.cast_below_le
  have hsignificand := one_le_significand h
  have hprevious : 0 ≤ x.previous := mul_nonneg (by linarith) x.ulp_pos.le
  have hlt := x.previous_lt
  obtain ⟨-, hlow, -⟩ := near_iff.mp hnear
  linarith

theorem value_div_unit (x : Binary64) :
    ((RoundingInterval.of x).value / (RoundingInterval.of x).unit : ℚ) = x.value := by
  have hunit : ((2 : ℚ) ^ (-x.exponent).toNat) ≠ 0 := by positivity
  show ((4 * x.significand * Nat.pow 2 x.exponent.toNat : Nat) : ℚ) /
    ((4 * Nat.pow 2 (-x.exponent).toNat : Nat) : ℚ) = x.significand * 2 ^ x.exponent
  rw [Nat.cast_mul, Nat.cast_mul, Nat.cast_mul, cast_nat_pow_two, cast_nat_pow_two,
    ← zpow_mul_pow_toNat two_ne_zero]
  push_cast
  field_simp

theorem one_le_value_mul {places : Nat} (hplaces : places = 330) (h : x.isZero = false) :
    1 ≤ x.value * 10 ^ places := by
  obtain ⟨n, hn, hle⟩ : ∃ n, n = 1074 ∧ 2 ^ n ≤ 10 ^ places :=
    ⟨1074, rfl, by subst hplaces; decide +kernel⟩
  have hcast : (2 : ℚ) ^ n ≤ 10 ^ places := by exact_mod_cast hle
  have hexponent : -(n : ℤ) ≤ x.exponent := by
    have := x.neg_le_exponent
    omega
  have hleast : (2 : ℚ) ^ (-(n : ℤ)) ≤ x.value := by
    calc (2 : ℚ) ^ (-(n : ℤ)) ≤ 2 ^ x.exponent := zpow_le_zpow_right₀ (by norm_num) hexponent
      _ ≤ x.value := le_mul_of_one_le_left x.ulp_pos.le (one_le_significand h)
  calc (1 : ℚ) = 2 ^ (-(n : ℤ)) * 2 ^ n := by
        rw [zpow_neg, zpow_natCast, inv_mul_cancel₀ (by positivity)]
    _ ≤ x.value * 10 ^ places :=
        mul_le_mul hleast hcast (by positivity) x.value_nonneg

def decade (x : Binary64) : ℤ := (RoundingInterval.of x).decade

theorem decade_value (h : x.isZero = false) :
    (10 : ℚ) ^ x.decade ≤ x.value ∧ x.value < 10 ^ (x.decade + 1) := by
  have hspec := RoundingInterval.decade_spec (i := RoundingInterval.of x) rfl
    (by rw [value_div_unit]; exact one_le_value_mul rfl h)
  rwa [value_div_unit] at hspec

theorem holds_iff_near_mul (h : x.isZero = false) (e : ℤ) (n : Nat) :
    ((RoundingInterval.of x).inUnitsOf e).Holds n ↔ x.Near (n * 10 ^ e) := by
  have hpos : (0 : ℚ) ≤ n * 10 ^ e := mul_nonneg (Nat.cast_nonneg n) (zpow_pos (by norm_num) e).le
  rw [RoundingInterval.holds_inUnitsOf, holds_iff_near (significand_ne_zero h) hpos]

theorem holds_value_inUnitsOf (h : x.isZero = false) (e : ℤ) :
    ((RoundingInterval.of x).inUnitsOf e).Holds
      (((RoundingInterval.of x).inUnitsOf e).value / ((RoundingInterval.of x).inUnitsOf e).unit) := by
  rw [RoundingInterval.holds_inUnitsOf, RoundingInterval.value_inUnitsOf]
  exact holds_value h

theorem abs_value_sub_mul (x : Binary64) (e : ℤ) (n : Nat) : |x.value - n * 10 ^ e| =
    |(((RoundingInterval.of x).inUnitsOf e).value / ((RoundingInterval.of x).inUnitsOf e).unit : ℚ) -
      n| * 10 ^ e := by
  have hgrid : (0 : ℚ) < 10 ^ e := zpow_pos (by norm_num) e
  rw [← value_div_unit, ← RoundingInterval.value_inUnitsOf _ e, ← sub_mul, abs_mul,
    abs_of_pos hgrid]

/-- With each grid the points next to the number have one digit more. -/
theorem floor_lt (h : x.isZero = false) (j : Nat) :
    ((RoundingInterval.of x).inUnitsOf (x.decade - j)).value /
      ((RoundingInterval.of x).inUnitsOf (x.decade - j)).unit < 10 ^ (j + 1) := by
  have hgrid : (0 : ℚ) < 10 ^ (x.decade - j) := zpow_pos (by norm_num) _
  have hpow : (10 : ℚ) ^ (x.decade + 1) = 10 ^ (j + 1) * 10 ^ (x.decade - j) := by
    rw [← zpow_natCast, ← zpow_add₀ (by norm_num)]
    congr 1
    push_cast
    ring
  have hlt := (decade_value h).2
  rw [← value_div_unit, ← RoundingInterval.value_inUnitsOf _ (x.decade - j)] at hlt
  have hfloor := lt_of_lt_of_eq hlt hpow
  exact_mod_cast lt_of_le_of_lt Nat.cast_div_le (lt_of_mul_lt_mul_right hfloor hgrid.le)

/-- The shortest decimal is the point of its grid that is nearest to the number. On the coarser grids
no point is rounded to it. -/
theorem shortest_spec (h : x.isZero = false) : ∃ j k : Nat,
    x.shortest = ⟨k, x.decade - j⟩ ∧ k ≤ 10 ^ (j + 1) ∧
      (∀ l < j, ∀ n : Nat, ¬ x.Near (n * 10 ^ (x.decade - l))) ∧
      ∀ n : Nat, x.Near (n * 10 ^ (x.decade - j)) →
        |x.value - x.shortest.value| ≤ |x.value - n * 10 ^ (x.decade - j)| := by
  obtain ⟨j, k, hsearch, hk, hvain⟩ := (RoundingInterval.of x).search_spec
    ((-x.exponent).toNat + (x.decade + 1).toNat) x.decade
  have hshortest : x.shortest = ⟨k, x.decade - j⟩ := (shortest_eq h).trans hsearch
  refine ⟨j, k, hshortest, ?_, fun l hl n => ?_, fun n hn => ?_⟩
  · have hfloor := floor_lt h j
    rcases hk with hk | ⟨-, hk⟩
    · rcases RoundingInterval.nearest?_eq_some hk with ⟨hk, -⟩ | ⟨hk, -⟩
      · exact hk ▸ hfloor.le
      · exact hk ▸ hfloor
    · exact hk ▸ hfloor.le
  · rw [← holds_iff_near_mul h]
    exact RoundingInterval.not_holds_of_nearest? (holds_value_inUnitsOf h _) (hvain l hl) n
  · rcases hk with hk | ⟨rfl, rfl⟩
    · have hclosest := RoundingInterval.closest_of_nearest?
        (RoundingInterval.unit_inUnitsOf_ne_zero x.unit_ne_zero _) (holds_value_inUnitsOf h _) hk
        ((holds_iff_near_mul h _ n).mpr hn)
      rw [hshortest]
      show |x.value - k * 10 ^ (x.decade - j)| ≤ _
      rw [abs_value_sub_mul, abs_value_sub_mul]
      exact mul_le_mul_of_nonneg_right hclosest (zpow_pos (by norm_num) _).le
    · have hexact : x.shortest.value = x.value := by
        rw [hshortest, RoundingInterval.value_of_dvd x.unit_ne_zero, value_div_unit]
        exact x.dvd_last (by push_cast; omega)
      rw [hexact, sub_self, abs_zero]
      exact abs_nonneg _

/-- A decimal in the interval leads to a point on the grid of as many digits that is as near: the
decimal itself, or the power of ten between it and the number. -/
theorem exists_near_of_digits (h : x.isZero = false) {m k : Nat} {e : ℤ} (hm : m < 10 ^ (k + 1))
    (hnear : x.Near (m * 10 ^ e)) :
    ∃ n : Nat, x.Near (n * 10 ^ (x.decade - k)) ∧
      |x.value - n * 10 ^ (x.decade - k)| ≤ |x.value - m * 10 ^ e| := by
  have hle : (10 : ℚ) ^ x.decade ≤ x.value := (decade_value h).1
  by_cases hplace : x.decade - k ≤ e
  · refine ⟨m * 10 ^ (e - (x.decade - k)).toNat, ?_⟩
    have hsum : e = (e - (x.decade - k)).toNat + (x.decade - k) := by omega
    have hsame : ((m * 10 ^ (e - (x.decade - k)).toNat : Nat) : ℚ) * 10 ^ (x.decade - k) =
        m * 10 ^ e := by
      rw [Nat.cast_mul, Nat.cast_pow, mul_assoc, ← zpow_natCast]
      push_cast
      rw [← zpow_add₀ (by norm_num), ← hsum]
    rw [hsame]
    exact ⟨hnear, le_refl _⟩
  · have hpower : ((10 ^ k : Nat) : ℚ) * 10 ^ (x.decade - k) = 10 ^ x.decade := by
      push_cast
      rw [← zpow_natCast, ← zpow_add₀ (by norm_num)]
      congr 1
      ring
    have hdigits : (m : ℚ) ≤ 10 ^ (k + 1) := by exact_mod_cast hm.le
    have hbelow : (m : ℚ) * 10 ^ e ≤ 10 ^ x.decade := by
      calc (m : ℚ) * 10 ^ e ≤ 10 ^ (k + 1) * 10 ^ e :=
            mul_le_mul_of_nonneg_right hdigits (zpow_pos (by norm_num) e).le
        _ = 10 ^ ((k + 1 : Nat) + e) := by rw [zpow_add₀ (by norm_num), zpow_natCast]
        _ ≤ 10 ^ x.decade := zpow_le_zpow_right₀ (by norm_num) (by omega)
    refine ⟨10 ^ k, ?_⟩
    rw [hpower]
    refine ⟨hnear.convex x.near_value hbelow hle, ?_⟩
    rw [abs_of_nonneg (by linarith), abs_of_nonneg (by linarith)]
    linarith

theorem length_digits_shortest_le_succ {j k : Nat} (hshortest : x.shortest = ⟨k, x.decade - j⟩)
    (hk : k ≤ 10 ^ (j + 1)) : x.shortest.digits.length ≤ j + 1 := by
  rw [hshortest]
  rcases Nat.lt_or_eq_of_le hk with hlt | heq
  · exact Decimal.length_digits_le (Nat.succ_pos j) hlt (z := 0) (by simp)
  · refine (Decimal.length_digits_le (m := 1) (z := j + 1) Nat.one_pos (by decide) ?_).trans
      (Nat.succ_pos j)
    rw [heq, one_mul]

theorem ne_zero_of_near (h : x.isZero = false) {m k : Nat} {e : ℤ} (hm : m < 10 ^ k)
    (hnear : x.Near (m * 10 ^ e)) : k ≠ 0 := by
  rintro rfl
  have hzero : m = 0 := by simpa using hm
  rw [hzero, Nat.cast_zero, zero_mul] at hnear
  exact not_near_zero h hnear

/-- No decimal with fewer digits is rounded to the same number. -/
theorem length_digits_shortest_le (h : x.isZero = false) {m k : Nat} {e : ℤ} (hm : m < 10 ^ k)
    (hnear : x.Near (m * 10 ^ e)) : x.shortest.digits.length ≤ k := by
  obtain ⟨j, c, hshortest, hc, hvain, -⟩ := shortest_spec h
  have hlength := length_digits_shortest_le_succ hshortest hc
  obtain ⟨k, rfl⟩ := Nat.exists_eq_succ_of_ne_zero (ne_zero_of_near h hm hnear)
  obtain ⟨n, hn, -⟩ := exists_near_of_digits h hm hnear
  by_contra hless
  exact hvain k (by omega) n hn

/-- Of the decimals with as few digits that are rounded to the number, none is nearer to it. -/
theorem abs_value_sub_shortest_le (h : x.isZero = false) {m k : Nat} {e : ℤ} (hm : m < 10 ^ k)
    (hk : k ≤ x.shortest.digits.length) (hnear : x.Near (m * 10 ^ e)) :
    |x.value - x.shortest.value| ≤ |x.value - m * 10 ^ e| := by
  obtain ⟨j, c, hshortest, hc, -, hclosest⟩ := shortest_spec h
  have hlength := length_digits_shortest_le_succ hshortest hc
  have hdigits : m < 10 ^ (j + 1) :=
    hm.trans_le (Nat.pow_le_pow_right (by decide) (hk.trans hlength))
  obtain ⟨n, hn, hle⟩ := exists_near_of_digits h hdigits hnear
  exact (hclosest n hn).trans hle

theorem shortest_magnitude (x : Binary64) : x.magnitude.shortest = x.shortest := by
  unfold shortest isZero RoundingInterval.of
  rw [exponentField_magnitude, fraction_magnitude, significand_magnitude, exponent_magnitude]

theorem coefficient_shortest_ne_zero (h : x.isZero = false) : x.shortest.coefficient ≠ 0 := by
  intro hzero
  have hnear := near_shortest h
  unfold Decimal.value at hnear
  rw [hzero, Nat.cast_zero, zero_mul] at hnear
  exact not_near_zero h hnear

/-- The shortest decimal is on the same side of a decimal `y.shortest` as the number, if rounding
the decimal to `y` did not make it smaller. -/
theorem value_shortest_lt_iff (hx : x.exponentField < 2047) (hy : y.exponentField < 2047)
    (hzero : x.isZero = false) (hzero' : y.isZero = false) (h : y.shortest.value ≤ y.value) :
    x.shortest.value < y.shortest.value ↔ x.value < y.shortest.value := by
  -- Where the two differ, the decimal is rounded to `x` as well.
  have hsame (hnear : x.Near y.shortest.value) : x.magnitude = y.magnitude := by
    rw [← hnear.round_eq hx, ← (near_shortest hzero').round_eq hy]
  constructor
  · intro hlt
    by_contra hge
    have hnear := (near_shortest hzero).convex x.near_value hlt.le (not_lt.mp hge)
    rw [← x.shortest_magnitude, hsame hnear, shortest_magnitude] at hlt
    exact lt_irrefl _ hlt
  · intro hlt
    by_contra hge
    have hnear := x.near_value.convex (near_shortest hzero) hlt.le (not_lt.mp hge)
    rw [← x.value_magnitude, hsame hnear, value_magnitude] at hlt
    exact absurd h (not_le.mpr hlt)

theorem leading_shortest_lt_iff {n : ℤ} (hx : x.exponentField < 2047)
    (hy : y.exponentField < 2047) (hzero : x.isZero = false) (hzero' : y.isZero = false)
    (hpower : y.shortest = ⟨1, n⟩) (h : 10 ^ n ≤ y.value) :
    x.shortest.leading < n ↔ x.value < 10 ^ n := by
  have hvalue : y.shortest.value = 10 ^ n := by
    rw [hpower]
    unfold Decimal.value
    rw [Nat.cast_one, one_mul]
  rw [Decimal.leading_lt_iff (coefficient_shortest_ne_zero hzero), ← hvalue]
  exact value_shortest_lt_iff hx hy hzero hzero' (by rwa [hvalue])

theorem leading_shortest_lt_sixteen (hx : x.exponentField < 2047) (h : x.isZero = false) :
    x.shortest.leading < 16 ↔ x.value < 10 ^ 16 := by
  let y : Binary64 := ⟨0x4341C37937E08000⟩
  have hsignificand : y.significand = 0x11C37937E08000 := by decide
  have hexponent : y.exponent = 1 := by decide
  have hpower : y.shortest = ⟨1, 16⟩ := by decide +kernel
  have hvalue : 10 ^ (16 : ℤ) ≤ y.value := by
    unfold value
    rw [hsignificand, hexponent]
    norm_num
  have hlt := leading_shortest_lt_iff hx (y := y) (by decide) h (by decide) hpower hvalue
  rw [hlt]
  norm_cast

theorem leading_shortest_lt_neg_four (hx : x.exponentField < 2047) (h : x.isZero = false) :
    x.shortest.leading < -4 ↔ x.value < 1 / 10000 := by
  let y : Binary64 := ⟨0x3F1A36E2EB1C432D⟩
  have hsignificand : y.significand = 0x1A36E2EB1C432D := by decide
  have hexponent : y.exponent = -66 := by decide
  have hpower : y.shortest = ⟨1, -4⟩ := by decide +kernel
  have hvalue : 10 ^ (-4 : ℤ) ≤ y.value := by
    unfold value
    rw [hsignificand, hexponent]
    norm_num
  have hlt := leading_shortest_lt_iff hx (y := y) (by decide) h (by decide) hpower hvalue
  rw [hlt]
  norm_num

theorem leading_shortest_iff (hx : x.exponentField < 2047) :
    -4 ≤ x.shortest.leading ∧ x.shortest.leading < 16 ↔
      x.isZero = true ∨ 1 / 10000 ≤ x.value ∧ x.value < 10 ^ 16 := by
  cases h : x.isZero with
  | true =>
    rw [shortest_of_isZero h]
    exact iff_of_true (by decide) (.inl rfl)
  | false =>
    rw [leading_shortest_lt_sixteen hx h, ← not_lt, leading_shortest_lt_neg_four hx h, not_lt]
    exact (or_iff_right Bool.false_ne_true).symm

end Binary64

end ExtensionHeader
