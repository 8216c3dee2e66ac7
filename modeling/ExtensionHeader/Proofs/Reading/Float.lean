import ExtensionHeader.Proofs.Reading.Value
import ExtensionHeader.Proofs.Shortest

/-! The text of a binary64 number: what it is read back as, in which notation it is, and that no
literal of the same number has fewer significant digits, or as few and a closer value. -/
namespace ExtensionHeader

namespace Reading

/-- The digits in front of an exponent, without the zeros before and behind them. -/
def significant (text : List Char) : List Char :=
  let digits := (text.takeWhile (· ≠ 'e')).filter Char.isDigit
  ((digits.dropWhile (· = '0')).reverse.dropWhile (· = '0')).reverse

def IsPositional (text : List Char) : Prop :=
  ∃ whole fraction, text = whole ++ '.' :: fraction ∧ whole ≠ [] ∧ fraction ≠ [] ∧
    ∀ c ∈ whole ++ fraction, c.isDigit = true

def mantissa (first : Char) (rest : List Char) : List Char :=
  first :: (if rest = [] then [] else '.' :: rest)

def IsScientific (text : List Char) : Prop :=
  ∃ (first : Char) (rest : List Char) (exponent : ℤ), first ≠ '0' ∧
    (∀ c ∈ first :: rest, c.isDigit = true) ∧
      text = mantissa first rest ++ 'e' :: (toString exponent).toList

def magnitude? (text : List Char) : Option Binary64 :=
  if text = "INF".toList then some .infinity else float? text

def binary64? (text : List Char) : Option Binary64 :=
  if text = "NAN".toList then some .nan else signed? magnitude? (fun x => some x.negate) text

/-! Significant digits. -/

theorem length_strip_le (digits : List Char) (front back : Nat) :
    (((List.replicate front '0' ++ digits ++ List.replicate back '0').dropWhile
      (· = '0')).reverse.dropWhile (· = '0')).reverse.length ≤ digits.length := by
  have hzeros (n : Nat) : ∀ c ∈ List.replicate n '0', decide (c = '0') = true :=
    fun c hc => decide_eq_true (List.eq_of_mem_replicate hc)
  rw [List.append_assoc, List.dropWhile_append_of_pos (hzeros front), List.dropWhile_append]
  split
  · rw [List.dropWhile_eq_nil_iff.mpr (hzeros back)]
    exact Nat.zero_le _
  · rw [List.reverse_append, List.reverse_replicate, List.dropWhile_append_of_pos (hzeros back),
      List.length_reverse]
    refine (List.length_dropWhile_le _ _).trans ?_
    rw [List.length_reverse]
    exact List.length_dropWhile_le _ _

theorem ofDigitChars_lt {digits : List Char} (h : ∀ c ∈ digits, c.isDigit = true) (init : Nat) :
    Nat.ofDigitChars 10 digits init < (init + 1) * 10 ^ digits.length := by
  induction digits generalizing init with
  | nil => simp
  | cons c rest ih =>
    obtain ⟨hc, hrest⟩ := List.forall_mem_cons.mp h
    have hdigit : c.toNat - '0'.toNat ≤ 9 := by
      have hle : c.toNat ≤ '9'.toNat := (Char.isDigit_iff_toNat.mp hc).2
      exact Nat.sub_le_sub_right hle _
    rw [Nat.ofDigitChars_cons, List.length_cons, pow_succ', ← mul_assoc]
    refine (ih hrest _).trans_le (Nat.mul_le_mul_right _ ?_)
    omega

theorem exists_ofDigitChars_eq (digits : List Char) : ∃ zeros, Nat.ofDigitChars 10 digits 0 =
    10 ^ zeros * Nat.ofDigitChars 10
      ((digits.dropWhile (· = '0')).reverse.dropWhile (· = '0')).reverse 0 := by
  obtain ⟨front, hfront⟩ := exists_leading_zeros digits
  obtain ⟨back, hback⟩ := exists_trailing_zeros (digits.dropWhile (· = '0'))
  refine ⟨back, ?_⟩
  conv =>
    lhs
    rw [hfront, hback]
  rw [Nat.ofDigitChars_append, Nat.ofDigitChars_append, Nat.ofDigitChars_replicate_zero,
    Nat.ofDigitChars_replicate_zero, mul_zero]

theorem number?_eq_some {digits : List Char} {n : Nat} (h : number? digits = some n) :
    (∀ c ∈ digits, c.isDigit = true) ∧ n = Nat.ofDigitChars 10 digits 0 := by
  unfold number? at h
  split at h
  · rename_i hdigits
    cases h
    exact ⟨List.all_eq_true.mp hdigits.2, rfl⟩
  · contradiction

theorem coefficient_of_mantissa? {text : List Char} {d : Decimal} (h : mantissa? text = some d) :
    d.coefficient = Nat.ofDigitChars 10 (text.filter Char.isDigit) 0 := by
  obtain ⟨n, hn, rfl⟩ := Option.map_eq_some_iff.mp h
  obtain ⟨hdigits, hvalue⟩ := number?_eq_some hn
  rw [List.forall_mem_append] at hdigits
  obtain ⟨hwhole, hfraction⟩ := hdigits
  have hrest : (text.dropWhile (· ≠ '.')).filter Char.isDigit =
      (text.dropWhile (· ≠ '.')).tail := by
    cases hdrop : text.dropWhile (· ≠ '.') with
    | nil => rfl
    | cons c rest =>
      have hpoint : c = '.' := by
        have hstop := List.head?_dropWhile_not (· ≠ '.') text
        rw [hdrop] at hstop
        simpa using hstop
      rw [hdrop] at hfraction
      rw [hpoint, List.filter_cons_of_neg (by decide)]
      exact List.filter_eq_self.mpr hfraction
  have hsplit : text.filter Char.isDigit =
      text.takeWhile (· ≠ '.') ++ (text.dropWhile (· ≠ '.')).tail := by
    rw [← hrest, ← List.filter_eq_self.mpr hwhole, ← List.filter_append,
      List.takeWhile_append_dropWhile]
  rw [hsplit]
  exact hvalue

theorem coefficient_of_decimal? {text : List Char} {d : Decimal} (h : decimal? text = some d) :
    d.coefficient =
      Nat.ofDigitChars 10 ((text.takeWhile (· ≠ 'e')).filter Char.isDigit) 0 := by
  unfold decimal? at h
  split at h
  · rename_i hdrop
    rw [List.takeWhile_eq_self_iff.mpr (List.dropWhile_eq_nil_iff.mp hdrop)]
    exact coefficient_of_mantissa? h
  · obtain ⟨mantissa, hmantissa, h⟩ := Option.bind_eq_some_iff.mp h
    obtain ⟨e, -, h⟩ := Option.bind_eq_some_iff.mp h
    cases h
    have hcoefficient := coefficient_of_mantissa? hmantissa
    exact hcoefficient

/-- A literal stands for a number with as many digits as it shows significant ones. -/
theorem exists_value_eq {text : List Char} {d : Decimal} (h : decimal? text = some d) :
    ∃ (m : Nat) (e : ℤ), d.value = m * 10 ^ e ∧ m < 10 ^ (significant text).length := by
  obtain ⟨zeros, hzeros⟩ :=
    exists_ofDigitChars_eq ((text.takeWhile (· ≠ 'e')).filter Char.isDigit)
  have hdigits : ∀ c ∈ significant text, c.isDigit = true := by
    intro c hc
    have hmem := (List.dropWhile_suffix _).subset (List.mem_reverse.mp hc)
    have hmem' := (List.dropWhile_suffix _).subset (List.mem_reverse.mp hmem)
    exact (List.mem_filter.mp hmem').2
  refine ⟨Nat.ofDigitChars 10 (significant text) 0, zeros + d.exponent, ?_, ?_⟩
  · unfold Decimal.value
    rw [coefficient_of_decimal? h, hzeros, zpow_add₀ (by norm_num), zpow_natCast]
    unfold significant
    push_cast
    ring
  · have hlt := ofDigitChars_lt hdigits 0
    rwa [zero_add, one_mul] at hlt

/-! Notations. -/

theorem scientific_eq (first : Char) (rest : List Char) (n : ℤ) :
    Decimal.scientific (first :: rest) n = mantissa first rest ++ 'e' :: (toString n).toList := by
  cases rest <;> rfl

theorem forall_mem_mantissa {P : Char → Prop} {first : Char} {rest : List Char} (hpoint : P '.')
    (h : ∀ c ∈ first :: rest, P c) : ∀ c ∈ mantissa first rest, P c := by
  obtain ⟨hfirst, hrest⟩ := List.forall_mem_cons.mp h
  unfold mantissa
  rw [List.forall_mem_cons]
  refine ⟨hfirst, ?_⟩
  split
  · exact fun c hc => absurd hc List.not_mem_nil
  · exact List.forall_mem_cons.mpr ⟨hpoint, hrest⟩

theorem filter_mantissa {first : Char} {rest : List Char}
    (h : ∀ c ∈ first :: rest, c.isDigit = true) :
    (mantissa first rest).filter Char.isDigit = first :: rest := by
  obtain ⟨hfirst, hrest⟩ := List.forall_mem_cons.mp h
  unfold mantissa
  rw [List.filter_cons_of_pos hfirst]
  split
  · rename_i hnil
    rw [hnil]
    rfl
  · rw [List.filter_cons_of_neg (by decide), List.filter_eq_self.mpr hrest]

theorem decide_ne_e_of_isDigit {c : Char} (h : c.isDigit = true) : decide (c ≠ 'e') = true := by
  refine decide_eq_true ?_
  rintro rfl
  contradiction

section digits

variable {digits : List Char} (hne : digits ≠ []) (h : ∀ c ∈ digits, c.isDigit = true)

include hne h

theorem isPositional_positional (point : ℤ) : IsPositional (Decimal.positional digits point) := by
  obtain ⟨whole, fraction, front, back, htext, hwhole, hfraction, hdigits, -⟩ :=
    Decimal.exists_positional hne point
  exact ⟨whole, fraction, htext, hwhole, hfraction, Decimal.isDigit_of_padded h hdigits⟩

theorem length_significant_positional_le (point : ℤ) :
    (significant (Decimal.positional digits point)).length ≤ digits.length := by
  obtain ⟨whole, fraction, front, back, htext, -, -, hdigits, -⟩ :=
    Decimal.exists_positional hne point
  obtain ⟨hwhole, hfraction⟩ :=
    List.forall_mem_append.mp (Decimal.isDigit_of_padded h hdigits)
  have hself : (whole ++ '.' :: fraction).takeWhile (· ≠ 'e') = whole ++ '.' :: fraction := by
    rw [List.takeWhile_eq_self_iff, List.forall_mem_append, List.forall_mem_cons]
    exact ⟨fun c hc => decide_ne_e_of_isDigit (hwhole c hc), by decide,
      fun c hc => decide_ne_e_of_isDigit (hfraction c hc)⟩
  have hfilter : (whole ++ '.' :: fraction).filter Char.isDigit = whole ++ fraction := by
    rw [List.filter_append, List.filter_cons_of_neg (by decide), List.filter_eq_self.mpr hwhole,
      List.filter_eq_self.mpr hfraction]
  unfold significant
  rw [htext, hself, hfilter, hdigits]
  exact length_strip_le digits front back

theorem length_significant_scientific_le (exponent : ℤ) :
    (significant (Decimal.scientific digits exponent)).length ≤ digits.length := by
  obtain ⟨first, rest, rfl⟩ := List.exists_cons_of_ne_nil hne
  have hexponent : ∀ c ∈ mantissa first rest, decide (c ≠ 'e') = true :=
    forall_mem_mantissa (by decide) fun c hc => decide_ne_e_of_isDigit (h c hc)
  unfold significant
  rw [scientific_eq, takeWhile_stop hexponent (by decide), filter_mantissa h]
  have hle := length_strip_le (first :: rest) 0 0
  rwa [List.replicate_zero, List.nil_append, List.append_nil] at hle

end digits

end Reading

namespace Decimal

open Reading

variable {d : Decimal}

theorem length_significant_text_le (d : Decimal) :
    (significant d.text).length ≤ d.digits.length := by
  have hdigits : ∀ c ∈ d.digits, c.isDigit = true := fun _ => d.isDigit_of_mem_digits
  unfold text
  split
  · exact length_significant_positional_le d.digits_ne_nil hdigits _
  · exact length_significant_scientific_le d.digits_ne_nil hdigits _

theorem isPositional_text (h : -4 ≤ d.leading ∧ d.leading < 16) : IsPositional d.text := by
  unfold text
  rw [if_pos h]
  exact isPositional_positional d.digits_ne_nil (fun _ => d.isDigit_of_mem_digits) _

theorem isScientific_text (hzero : d.coefficient ≠ 0) (h : ¬ (-4 ≤ d.leading ∧ d.leading < 16)) :
    IsScientific d.text := by
  obtain ⟨zeros, hall⟩ := d.exists_toDigits
  obtain ⟨first, rest, hdigits⟩ := List.exists_cons_of_ne_nil d.digits_ne_nil
  have hfirst : first ≠ '0' := by
    rintro rfl
    refine hzero (eq_zero_of_head?_toDigits ?_)
    rw [hall, hdigits]
    rfl
  unfold text
  rw [if_neg h, hdigits]
  exact ⟨first, rest, d.leading, hfirst, fun _ hc => d.isDigit_of_mem_digits (hdigits ▸ hc),
    scientific_eq first rest _⟩

end Decimal

namespace Binary64

open Reading

variable {x : Binary64}

/-- What the text of a number without its sign has to be, if the decimal `d` is read from it. -/
structure Shows (x : Binary64) (text : List Char) (d : Decimal) : Prop where
  pointed : '.' ∈ text ∨ 'e' ∈ text
  read : decimal? text = some d
  nearest : x.Nearest d.value
  fewest : ∀ other e, decimal? other = some e → x.Nearest e.value →
    (significant text).length ≤ (significant other).length
  closest : ∀ other e, decimal? other = some e → x.Nearest e.value →
    (significant other).length ≤ (significant text).length →
      |x.value - d.value| ≤ |x.value - e.value|
  positional : x.isZero = true ∨ 1 / 10000 ≤ x.value ∧ x.value < 10 ^ 16 → IsPositional text
  scientific : ¬ (x.isZero = true ∨ 1 / 10000 ≤ x.value ∧ x.value < 10 ^ 16) → IsScientific text

section other

variable {other : List Char} {e : Decimal} (hzero : x.isZero = false)
  (hread : decimal? other = some e) (hnearest : x.Nearest e.value)

include hzero hread hnearest

theorem length_significant_shortest_le :
    (significant x.shortest.text).length ≤ (significant other).length := by
  obtain ⟨m, k, hvalue, hm⟩ := exists_value_eq hread
  have hnear := hnearest.near e.value_nonneg
  rw [hvalue] at hnear
  exact x.shortest.length_significant_text_le.trans (length_digits_shortest_le hzero hm hnear)

theorem abs_value_sub_shortest_le_of_length
    (hlength : (significant other).length ≤ (significant x.shortest.text).length) :
    |x.value - x.shortest.value| ≤ |x.value - e.value| := by
  obtain ⟨m, k, hvalue, hm⟩ := exists_value_eq hread
  have hnear := hnearest.near e.value_nonneg
  rw [hvalue] at hnear ⊢
  have hdigits := hlength.trans x.shortest.length_significant_text_le
  exact abs_value_sub_shortest_le hzero hm hdigits hnear

end other

theorem shows_shortest (hfinite : x.exponentField < 2047) :
    ∃ d, x.Shows x.shortest.text d := by
  obtain ⟨d, hread, hvalue⟩ := x.shortest.decimal?_text
  refine ⟨d, ?_, hread, ?_, fun other e hother hnearest => ?_,
    fun other e hother hnearest hlength => ?_, ?_, fun h => ?_⟩
  · obtain ⟨c, hc, hpoint⟩ := List.any_eq_true.mp x.shortest.any_text
    rw [Bool.or_eq_true, decide_eq_true_iff, decide_eq_true_iff] at hpoint
    rcases hpoint with rfl | rfl
    · exact .inl hc
    · exact .inr hc
  · rw [hvalue]
    exact (round_eq_iff_nearest hfinite x.shortest.value_nonneg).mp (x.round_shortest hfinite)
  · cases hzero : x.isZero with
    | true =>
      rw [shortest_of_isZero hzero]
      exact Nat.zero_le _
    | false => exact length_significant_shortest_le hzero hother hnearest
  · rw [hvalue]
    cases hzero : x.isZero with
    | true =>
      rw [value_of_isZero hzero, value_shortest_of_isZero hzero, sub_self, abs_zero]
      exact abs_nonneg _
    | false => exact abs_value_sub_shortest_le_of_length hzero hother hnearest hlength
  · rw [← leading_shortest_iff hfinite]
    exact Decimal.isPositional_text
  · have hzero : x.isZero = false := Bool.eq_false_iff.mpr fun hzero => h (.inl hzero)
    rw [← leading_shortest_iff hfinite] at h
    exact Decimal.isScientific_text (coefficient_shortest_ne_zero hzero) h

theorem magnitude?_text (d : Decimal) : magnitude? d.text = some (.round d.value) := by
  unfold magnitude?
  rw [if_neg (ne_of_digit d.any_head?_text rfl rfl), d.float?_text]

theorem binary64?_text (x : Binary64) :
    binary64? x.text.toList = some (if x.isNaN then .nan else x) := by
  rcases x.cases_text with hnan | rfl | rfl | ⟨hfinite, hcases⟩
  · have htext : x.text = "NAN" := if_pos hnan
    rw [htext, hnan]
    rfl
  · decide
  · decide
  · rw [isNaN_eq_false hfinite, if_neg Bool.false_ne_true]
    unfold binary64?
    rcases hcases with ⟨htext, hsign⟩ | ⟨htext, hsign⟩
    · rw [htext, if_neg (ne_of_digit x.shortest.any_head?_text rfl rfl),
        signed?_of_digit x.shortest.any_head?_text, magnitude?_text, x.round_shortest hfinite,
        ← hsign]
    · have hname : '-' :: x.shortest.text ≠ "NAN".toList := by
        intro heq
        have hhead := congrArg List.head? heq
        exact absurd (Option.some.inj hhead) (by decide)
      rw [htext, if_neg hname]
      show (magnitude? x.shortest.text).bind _ = _
      rw [magnitude?_text, x.round_shortest hfinite, Option.bind_some, ← hsign]

theorem toList_text (hfinite : x.exponentField < 2047) :
    x.text.toList = (if x.isNegative then ['-'] else []) ++ x.shortest.text := by
  unfold text
  rw [isNaN_eq_false hfinite, isInfinite_eq_false hfinite]
  cases x.isNegative with
  | true => exact String.toList_ofList
  | false => exact String.toList_ofList

theorem isNaN_eq_false_of_isInfinite (h : x.isInfinite = true) : x.isNaN = false := by
  unfold isInfinite at h
  unfold isNaN
  rw [Bool.and_eq_true, decide_eq_true_iff, decide_eq_true_iff] at h
  rw [h.2, decide_eq_false (not_not.mpr rfl), Bool.and_false]

/-- The text of a number is read back as the number. NaNs and infinities have names; the text of a
finite number is a literal that is not taken for an integer and whose value no other number is
nearer to. It has the fewest digits, comes closest among the literals that have as few, and is
positional if the number is zero or from `0.0001` up to `10 ^ 16`. So two numbers that are written
alike are the same. -/
theorem text_reads_back (x : Binary64) :
    binary64? x.text.toList = some (if x.isNaN then .nan else x) ∧
    (x.isNaN = true → x.text = "NAN") ∧
    (x.isInfinite = true → x.text = if x.isNegative then "-INF" else "INF") ∧
    (x.exponentField < 2047 → ∃ magnitude d,
      x.text.toList = (if x.isNegative then ['-'] else []) ++ magnitude ∧ x.Shows magnitude d) ∧
    ∀ y : Binary64, x.isNaN = false → y.isNaN = false → x.text = y.text → x = y := by
  refine ⟨x.binary64?_text, fun h => if_pos h, fun h => ?_,
    fun h => ?_, fun y hx hy htext => ?_⟩
  · unfold text
    rw [isNaN_eq_false_of_isInfinite h, h]
    rfl
  · obtain ⟨d, hshows⟩ := shows_shortest h
    exact ⟨_, d, toList_text h, hshows⟩
  · have hread := x.binary64?_text
    rw [htext, y.binary64?_text, hx, hy] at hread
    exact (Option.some.inj hread).symm

theorem text_reads_back_least :
    (⟨1⟩ : Binary64).text = "5e-324" ∧ binary64? "5e-324".toList = some ⟨1⟩ ∧
    (∃ d, (⟨1⟩ : Binary64).Shows "5e-324".toList d) ∧
    binary64? "-0.0".toList = some ⟨0x8000000000000000⟩ ∧
    (⟨0x8000000000000000⟩ : Binary64).text ≠ (⟨0⟩ : Binary64).text := by
  have htext : (⟨1⟩ : Binary64).text = "5e-324" := by decide +kernel
  have hzero : (⟨0x8000000000000000⟩ : Binary64).text = "-0.0" := by decide +kernel
  obtain ⟨hread, -, -, hfinite, -⟩ := text_reads_back ⟨1⟩
  obtain ⟨hread', -, -, -, hinjective⟩ := text_reads_back ⟨0x8000000000000000⟩
  obtain ⟨magnitude, d, hmagnitude, hshows⟩ := hfinite (by decide)
  have hsign : (if (⟨1⟩ : Binary64).isNegative then ['-'] else []) = [] := by decide
  rw [htext, hsign, List.nil_append] at hmagnitude
  rw [htext] at hread
  rw [hzero] at hread'
  refine ⟨htext, hread, ⟨d, hmagnitude ▸ hshows⟩, hread', fun heq => ?_⟩
  exact absurd (hinjective ⟨0⟩ (by decide) (by decide) heq) (by decide)

end Binary64

end ExtensionHeader
