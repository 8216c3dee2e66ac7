import ExtensionHeader.Decimal.Notation
import ExtensionHeader.Proofs.Reading.Text
import ExtensionHeader.Proofs.Rounding
import Mathlib.Data.List.TakeWhile

/-! How decimal literals are read. A literal with a point or an exponent is the binary64 number that
is nearest to it; what is written for a finite number is such a literal and reads back. -/
namespace ExtensionHeader

namespace Reading

def integer? : List Char → Option Int
  | '-' :: digits => (number? digits).map fun n : Nat => -(n : Int)
  | '+' :: digits => (number? digits).map fun n : Nat => (n : Int)
  | digits => (number? digits).map fun n : Nat => (n : Int)

def mantissa? (text : List Char) : Option Decimal :=
  let whole := text.takeWhile (· ≠ '.')
  let fraction := (text.dropWhile (· ≠ '.')).tail
  (number? (whole ++ fraction)).map fun n => ⟨n, -fraction.length⟩

def decimal? (text : List Char) : Option Decimal :=
  match text.dropWhile (· ≠ 'e') with
  | [] => mantissa? text
  | _ :: exponent => do
    let d ← mantissa? (text.takeWhile (· ≠ 'e'))
    let e ← integer? exponent
    return ⟨d.coefficient, d.exponent + e⟩

/-- A literal for a number that is not taken as an integer. -/
def float? (text : List Char) : Option Binary64 :=
  if text.any fun c => c = '.' || c = 'e' then (decimal? text).map fun d => .round d.value else none

theorem integer?_of_digits {digits : List Char} (hne : digits ≠ [])
    (h : ∀ c ∈ digits, c.isDigit = true) :
    integer? digits = some ((Nat.ofDigitChars 10 digits 0 : Nat) : Int) := by
  unfold integer?
  split
  · exact absurd (h '-' List.mem_cons_self) (by decide)
  · exact absurd (h '+' List.mem_cons_self) (by decide)
  · rw [number?_of_digits hne h]
    rfl

theorem toList_toString_int (n : Int) :
    (toString n).toList = (if n < 0 then ['-'] else []) ++ Nat.toDigits 10 n.natAbs := by
  cases n with
  | ofNat n =>
    have hn : ¬ Int.ofNat n < 0 := Int.not_lt.mpr (Int.natCast_nonneg n)
    rw [if_neg hn]
    exact toList_toString n
  | negSucc n =>
    have htext : toString (Int.negSucc n) = "-" ++ toString (n + 1) := rfl
    rw [htext, String.toList_append, toList_toString, if_pos (Int.negSucc_lt_zero n)]
    rfl

theorem integer?_toString (n : Int) : integer? (toString n).toList = some n := by
  rw [toList_toString_int]
  by_cases hsign : n < 0
  · have habs : -(n.natAbs : Int) = n := by omega
    rw [if_pos hsign]
    show (number? (Nat.toDigits 10 n.natAbs)).map (fun n : Nat => -(n : Int)) = _
    rw [number?_toDigits, Option.map_some, habs]
  · have habs : (n.natAbs : Int) = n := Int.natAbs_of_nonneg (not_lt.mp hsign)
    rw [if_neg hsign, List.nil_append,
      integer?_of_digits Nat.toDigits_ne_nil fun _ => isDigit_of_mem_toDigits,
      Nat.ofDigitChars_ten_toDigits, habs]

theorem mantissa?_point {whole fraction : List Char} (hne : whole ≠ [])
    (h : ∀ c ∈ whole ++ fraction, c.isDigit = true) :
    mantissa? (whole ++ '.' :: fraction) =
      some ⟨Nat.ofDigitChars 10 (whole ++ fraction) 0, -fraction.length⟩ := by
  have hwhole : ∀ c ∈ whole, decide (c ≠ '.') = true :=
    forall_ne_of_not_mem fun hc => absurd (h '.' (List.mem_append_left _ hc)) (by decide)
  unfold mantissa?
  rw [takeWhile_stop hwhole (by decide), dropWhile_stop hwhole (by decide), List.tail_cons]
  dsimp only
  rw [number?_of_digits (List.append_ne_nil_of_left_ne_nil hne _) h]
  rfl

theorem mantissa?_digits {digits : List Char} (hne : digits ≠ [])
    (h : ∀ c ∈ digits, c.isDigit = true) :
    mantissa? digits = some ⟨Nat.ofDigitChars 10 digits 0, 0⟩ := by
  have hpoint : ∀ c ∈ digits, decide (c ≠ '.') = true :=
    forall_ne_of_not_mem fun hc => absurd (h '.' hc) (by decide)
  unfold mantissa?
  rw [List.takeWhile_eq_self_iff.mpr hpoint, List.dropWhile_eq_nil_iff.mpr hpoint, List.tail_nil]
  dsimp only
  rw [List.append_nil, number?_of_digits hne h]
  rfl

theorem exists_leading_zeros (digits : List Char) :
    ∃ zeros, digits = List.replicate zeros '0' ++ digits.dropWhile (· = '0') := by
  have hzeros : digits.takeWhile (· = '0') =
      List.replicate (digits.takeWhile (· = '0')).length '0' :=
    List.eq_replicate_of_mem fun c hc => by simpa using List.mem_takeWhile_imp hc
  refine ⟨(digits.takeWhile (· = '0')).length, ?_⟩
  rw [← hzeros, List.takeWhile_append_dropWhile]

theorem exists_trailing_zeros (digits : List Char) : ∃ zeros,
    digits = (digits.reverse.dropWhile (· = '0')).reverse ++ List.replicate zeros '0' := by
  obtain ⟨zeros, hzeros⟩ := exists_leading_zeros digits.reverse
  refine ⟨zeros, ?_⟩
  rw [← List.reverse_replicate, ← List.reverse_append, ← hzeros, List.reverse_reverse]

end Reading

namespace Decimal

open Reading

variable (d : Decimal)

theorem exists_toDigits : ∃ zeros,
    Nat.toDigits 10 d.coefficient = d.digits ++ List.replicate zeros '0' := by
  obtain ⟨zeros, hall⟩ := exists_trailing_zeros (Nat.toDigits 10 d.coefficient)
  unfold digits
  dsimp only
  split
  · rename_i hnil
    rw [hnil, List.nil_append] at hall
    have hne : zeros ≠ 0 := by
      rintro rfl
      exact Nat.toDigits_ne_nil hall
    obtain ⟨k, rfl⟩ := Nat.exists_eq_succ_of_ne_zero hne
    exact ⟨k, hall⟩
  · exact ⟨zeros, hall⟩

theorem digits_ne_nil : d.digits ≠ [] := by
  unfold digits
  dsimp only
  split
  · exact List.cons_ne_nil _ _
  · assumption

theorem isDigit_of_mem_digits {c : Char} (h : c ∈ d.digits) : c.isDigit = true := by
  obtain ⟨zeros, hdigits⟩ := d.exists_toDigits
  exact isDigit_of_mem_toDigits (hdigits ▸ List.mem_append_left _ h)

theorem value_eq_digits : d.value =
    Nat.ofDigitChars 10 d.digits 0 * 10 ^ (d.leading + 1 - (d.digits.length : ℤ)) := by
  obtain ⟨zeros, hdigits⟩ := d.exists_toDigits
  have hlength := congrArg List.length hdigits
  rw [List.length_append, List.length_replicate] at hlength
  have hcoefficient : d.coefficient = 10 ^ zeros * Nat.ofDigitChars 10 d.digits 0 := by
    rw [← Nat.ofDigitChars_replicate_zero, ← Nat.ofDigitChars_append, ← hdigits,
      Nat.ofDigitChars_ten_toDigits]
  have hplace : d.leading + 1 - (d.digits.length : ℤ) = d.exponent + zeros := by
    unfold leading
    rw [hlength]
    push_cast
    ring
  rw [hplace, zpow_add₀ (by norm_num), zpow_natCast]
  unfold value
  rw [hcoefficient]
  push_cast
  ring

def IsPointed (text : List Char) (q : ℚ) : Prop :=
  ∃ whole fraction, text = whole ++ '.' :: fraction ∧ whole ≠ [] ∧
    (∀ c ∈ whole ++ fraction, c.isDigit = true) ∧
    (Nat.ofDigitChars 10 (whole ++ fraction) 0 : ℚ) * 10 ^ (-(fraction.length : ℤ)) = q

theorem isDigit_of_mem_zeros {n : Nat} {c : Char} (h : c ∈ List.replicate n '0') :
    c.isDigit = true := by
  rw [List.eq_of_mem_replicate h]
  rfl

theorem isDigit_of_padded {digits padded : List Char} {front back : Nat}
    (h : ∀ c ∈ digits, c.isDigit = true)
    (hpadded : padded = List.replicate front '0' ++ digits ++ List.replicate back '0') :
    ∀ c ∈ padded, c.isDigit = true := by
  rw [hpadded, List.forall_mem_append, List.forall_mem_append]
  exact ⟨⟨fun _ => isDigit_of_mem_zeros, h⟩, fun _ => isDigit_of_mem_zeros⟩

theorem exists_positional {digits : List Char} (hne : digits ≠ []) (point : ℤ) :
    ∃ whole fraction : List Char, ∃ front back : Nat,
      positional digits point = whole ++ '.' :: fraction ∧ whole ≠ [] ∧ fraction ≠ [] ∧
        whole ++ fraction = List.replicate front '0' ++ digits ++ List.replicate back '0' ∧
          (back : ℤ) - (fraction.length : ℤ) = point - (digits.length : ℤ) := by
  unfold positional
  split
  · refine ⟨['0'], List.replicate (-point).toNat '0' ++ digits, (-point).toNat + 1, 0, rfl,
      List.cons_ne_nil _ _, List.append_ne_nil_of_right_ne_nil _ hne, ?_, ?_⟩
    · rw [List.replicate_zero, List.append_nil, List.replicate_succ]
      rfl
    · rw [List.length_append, List.length_replicate]
      omega
  · dsimp only
    split
    · rename_i hdrop
      have hlength : digits.length ≤ point.toNat := List.drop_eq_nil_iff.mp hdrop
      refine ⟨_, ['0'], 0, point.toNat - digits.length + 1, rfl, ?_, List.cons_ne_nil _ _, ?_, ?_⟩
      · rw [List.take_of_length_le hlength]
        exact List.append_ne_nil_of_left_ne_nil hne _
      · rw [List.take_of_length_le hlength, List.replicate_zero, List.nil_append,
          List.replicate_succ', List.append_assoc]
      · rw [List.length_singleton]
        omega
    · rename_i hdrop
      have hlength : point.toNat < digits.length := by
        rw [← not_le, ← List.drop_eq_nil_iff]
        exact hdrop
      have hplaces : point.toNat - digits.length = 0 := by omega
      refine ⟨_, _, 0, 0, rfl, ?_, hdrop, ?_, ?_⟩
      · intro hnil
        have := congrArg List.length hnil
        rw [List.length_append, List.length_take, List.length_nil] at this
        omega
      · rw [hplaces, List.replicate_zero, List.append_nil, List.take_append_drop, List.nil_append,
          List.append_nil]
      · rw [List.length_drop]
        omega

theorem isPointed_positional {digits : List Char} (h : ∀ c ∈ digits, c.isDigit = true)
    (hne : digits ≠ []) (point : ℤ) :
    IsPointed (positional digits point)
      (Nat.ofDigitChars 10 digits 0 * 10 ^ (point - (digits.length : ℤ))) := by
  obtain ⟨whole, fraction, front, back, htext, hwhole, -, hdigits, hplace⟩ :=
    exists_positional hne point
  refine ⟨whole, fraction, htext, hwhole, isDigit_of_padded h hdigits, ?_⟩
  rw [hdigits, Nat.ofDigitChars_append, Nat.ofDigitChars_append, Nat.ofDigitChars_replicate_zero,
    Nat.ofDigitChars_replicate_zero, mul_zero, ← hplace, sub_eq_add_neg, zpow_add₀ (by norm_num),
    zpow_natCast]
  push_cast
  ring

theorem IsPointed.decimal? {text : List Char} {q : ℚ} (h : IsPointed text q) :
    ∃ d, decimal? text = some d ∧ d.value = q := by
  obtain ⟨whole, fraction, rfl, hne, hdigits, hq⟩ := h
  have hexponent : 'e' ∉ whole ++ '.' :: fraction := by
    intro hmem
    have hdigit : 'e' ∈ whole ++ fraction := by simpa using hmem
    exact absurd (hdigits 'e' hdigit) (by decide)
  refine ⟨⟨Nat.ofDigitChars 10 (whole ++ fraction) 0, -fraction.length⟩, ?_, hq⟩
  unfold Reading.decimal?
  rw [List.dropWhile_eq_nil_iff.mpr (forall_ne_of_not_mem hexponent)]
  exact mantissa?_point hne hdigits

theorem decimal?_exponent {mantissa : List Char} {d : Decimal} (hexponent : 'e' ∉ mantissa)
    (h : mantissa? mantissa = some d) (n : ℤ) :
    Reading.decimal? (mantissa ++ 'e' :: (toString n).toList) =
      some ⟨d.coefficient, d.exponent + n⟩ := by
  have hstop := forall_ne_of_not_mem hexponent
  unfold Reading.decimal?
  rw [takeWhile_stop hstop (by decide), dropWhile_stop hstop (by decide), h]
  dsimp only
  rw [integer?_toString]
  rfl

theorem exists_scientific {digits : List Char} (hne : digits ≠ [])
    (h : ∀ c ∈ digits, c.isDigit = true) (n : ℤ) : ∃ mantissa, ∃ d : Decimal,
      scientific digits n = mantissa ++ 'e' :: (toString n).toList ∧ 'e' ∉ mantissa ∧
        mantissa? mantissa = some d ∧ d.coefficient = Nat.ofDigitChars 10 digits 0 ∧
          d.exponent = 1 - (digits.length : ℤ) := by
  have hexponent : 'e' ∉ digits := fun hmem => absurd (h _ hmem) (by decide)
  match digits with
  | [] => exact absurd rfl hne
  | [c] =>
    refine ⟨[c], _, rfl, hexponent, mantissa?_digits hne h, rfl, ?_⟩
    rfl
  | c :: b :: rest =>
    refine ⟨[c] ++ '.' :: b :: rest, _, rfl, ?_, mantissa?_point (List.cons_ne_nil _ _) h, rfl, ?_⟩
    · simpa using hexponent
    · simp only [List.length_cons]
      push_cast
      ring

theorem decimal?_scientific {digits : List Char} (hne : digits ≠ [])
    (h : ∀ c ∈ digits, c.isDigit = true) (n : ℤ) :
    ∃ d, Reading.decimal? (scientific digits n) = some d ∧
      d.value = Nat.ofDigitChars 10 digits 0 * 10 ^ (n + 1 - (digits.length : ℤ)) := by
  obtain ⟨mantissa, d, htext, hexponent, hmantissa, hcoefficient, hplace⟩ :=
    exists_scientific hne h n
  refine ⟨⟨d.coefficient, d.exponent + n⟩, ?_, ?_⟩
  · rw [htext, decimal?_exponent hexponent hmantissa]
  · unfold value
    dsimp only
    rw [hcoefficient, hplace]
    congr 2
    ring

theorem decimal?_text : ∃ read, Reading.decimal? d.text = some read ∧ read.value = d.value := by
  rw [value_eq_digits]
  unfold text
  split
  · exact (isPointed_positional (fun _ => d.isDigit_of_mem_digits) d.digits_ne_nil _).decimal?
  · exact decimal?_scientific d.digits_ne_nil (fun _ => d.isDigit_of_mem_digits) _

theorem any_head?_text : d.text.head?.any Char.isDigit = true := by
  unfold text
  split
  · obtain ⟨whole, fraction, htext, hne, hwhole, -⟩ :=
      isPointed_positional (fun _ => d.isDigit_of_mem_digits) d.digits_ne_nil (d.leading + 1)
    obtain ⟨c, rest, rfl⟩ := List.exists_cons_of_ne_nil hne
    rw [htext]
    exact hwhole c List.mem_cons_self
  · obtain ⟨c, rest, hc⟩ := List.exists_cons_of_ne_nil d.digits_ne_nil
    have hdigit := d.isDigit_of_mem_digits (hc ▸ List.mem_cons_self)
    rw [hc]
    cases rest <;> exact hdigit

theorem any_text : (d.text.any fun c => c = '.' || c = 'e') = true := by
  rw [List.any_eq_true]
  unfold text
  split
  · obtain ⟨whole, fraction, htext, -⟩ :=
      isPointed_positional (fun _ => d.isDigit_of_mem_digits) d.digits_ne_nil (d.leading + 1)
    exact ⟨'.', htext ▸ List.mem_append_right _ List.mem_cons_self, rfl⟩
  · refine ⟨'e', ?_, rfl⟩
    unfold scientific
    exact List.mem_append_right _ List.mem_cons_self

theorem float?_text : float? d.text = some (.round d.value) := by
  obtain ⟨read, hread, hvalue⟩ := d.decimal?_text
  unfold float?
  rw [if_pos d.any_text, hread, Option.map_some, hvalue]

end Decimal

end ExtensionHeader
