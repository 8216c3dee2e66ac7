import ExtensionHeader.Header.Routine
import ExtensionHeader.Proofs.Reading.Literal
import ExtensionHeader.Proofs.Reading.Numeral

/-! What default values evaluate to. Argument information gives a default as the source text of a
PHP literal, and a registration routine stores it by C statements. -/
namespace ExtensionHeader

open Header

namespace Binary64

def nan : Binary64 := ⟨0x7ff8000000000000⟩

def infinity : Binary64 := ⟨0x7ff0000000000000⟩

theorem magnitude_of_isInfinite {x : Binary64} (h : x.isInfinite = true) :
    x.magnitude = infinity := by
  have hfields : x.exponentField = 2047 ∧ x.fraction = 0 := by simpa [isInfinite] using h
  unfold magnitude
  rw [hfields.1, hfields.2]
  rfl

/-- Numbers are told apart as their texts are: by the magnitude first, then by the sign. -/
theorem cases_text (x : Binary64) :
    x.isNaN = true ∨ x = infinity ∨ x = infinity.negate ∨
      x.exponentField < 2047 ∧ (x.text.toList = x.shortest.text ∧ x = x.magnitude ∨
        x.text.toList = '-' :: x.shortest.text ∧ x = x.magnitude.negate) := by
  have hsign := x.eq_magnitude
  cases hnan : x.isNaN with
  | true => exact .inl rfl
  | false =>
    cases hinfinite : x.isInfinite with
    | true =>
      rw [magnitude_of_isInfinite hinfinite] at hsign
      split at hsign
      · exact .inr (.inr (.inl hsign))
      · exact .inr (.inl hsign)
    | false =>
      refine .inr (.inr (.inr ⟨exponentField_lt_of_finite hnan hinfinite, ?_⟩))
      unfold text
      cases hnegative : x.isNegative with
      | true =>
        rw [hnegative] at hsign
        exact .inr ⟨by simp [hnan, hinfinite], hsign⟩
      | false =>
        rw [hnegative] at hsign
        exact .inl ⟨by simp [hnan, hinfinite], hsign⟩

end Binary64

/-- A value of the engine. A string is its bytes, and there is only one NaN. -/
inductive Value where
  | null
  | bool (value : Bool)
  | int (value : Int64)
  | float (value : Binary64)
  | string (bytes : List UInt8)
  | emptyArray
deriving DecidableEq, Repr

namespace Value

def kind : Value → Scalar
  | null => .null
  | bool _ => .bool
  | int _ => .int
  | float _ => .float
  | string _ => .string
  | emptyArray => .array

def ofFloat (x : Binary64) : Value := float (if x.isNaN then .nan else x)

/-- The unary minus. It makes a float of the one integer without a counterpart. -/
def negate? : Value → Option Value
  | int n => some (if n = Int64.minValue then float (.round (2 ^ 63)) else int (-n))
  | float x => some (ofFloat x.negate)
  | _ => none

theorem ofFloat_nan {x : Binary64} (h : x.isNaN = true) : ofFloat x = float .nan := by
  unfold ofFloat
  rw [if_pos h]

theorem negate?_ofFloat {x : Binary64} (h : x.isNaN = false) :
    (ofFloat x).negate? = some (ofFloat x.negate) := by
  have hself : ofFloat x = float x := by
    unfold ofFloat
    rw [h]
    rfl
  rw [hself]
  rfl

end Value

/-- The value that is meant. That of a class constant is known to the runtime only. -/
def DefaultValue.value? : DefaultValue → Option Value
  | null => some .null
  | bool b => some (.bool b)
  | int n => some (.int n)
  | float x => some (.ofFloat x)
  | string s => some (.string (Text.bytes s))
  | emptyArray => some .emptyArray
  | constant .. => none

def Header.Initial.value? : Initial → Option Value
  | undefined => none
  | null => some .null
  | bool b => some (.bool b)
  | long n => some (.int n)
  | double x => some (.ofFloat x)
  | emptyArray => some .emptyArray

theorem DefaultValue.kind?_eq (v : DefaultValue) : v.kind? = v.value?.map (·.kind) := by
  cases v <;> rfl

namespace Reading

/-- The digits of a number. With a zero before other digits they would be octal. -/
def natural? (text : List Char) : Option Nat :=
  if text.head? = some '0' ∧ text ≠ ['0'] then none else number? text

def signed? (read? : List Char → Option α) (negate? : α → Option α) : List Char → Option α
  | '-' :: text => (read? text).bind negate?
  | text => read? text

/-! PHP expressions. -/

/-- Integers that are too large for a machine word are floats. -/
def phpNumber? (text : List Char) : Option Value :=
  if text.any fun c => c = '.' || c = 'e' then (float? text).map .ofFloat
  else (natural? text).map fun n : Nat =>
    if n < 2 ^ 63 then .int (Int64.ofInt n) else .float (.round n)

def phpConstants : List (String × Value) :=
  [("null", .null), ("true", .bool true), ("false", .bool false), ("[]", .emptyArray),
    ("NAN", .float .nan), ("INF", .float .infinity)]

def phpAtom? (text : List Char) : Option Value :=
  match text with
  | '"' :: _ => do
    let (bytes, rest) ← phpDialect.literal? text
    if rest = [] then some (.string bytes) else none
  | c :: _ => if c.isDigit then phpNumber? text else phpConstants.lookup (String.ofList text)
  | [] => none

def phpValue? : List Char → Option Value := signed? phpAtom? Value.negate?

/-! C expressions and statements. -/

def cWord? (text : List Char) : Option Int64 :=
  if text = "ZEND_LONG_MIN".toList then some Int64.minValue
  else (natural? text).bind fun n => if n < 2 ^ 63 then some (Int64.ofInt n) else none

def cLong? : List Char → Option Int64 :=
  signed? cWord? fun n => if n = Int64.minValue then none else some (-n)

def cMagnitude? (text : List Char) : Option Binary64 :=
  if text = "ZEND_NAN".toList then some .nan
  else if text = "ZEND_INFINITY".toList then some .infinity
  else float? text

def cDouble? : List Char → Option Binary64 := signed? cMagnitude? fun x => some x.negate

def operation? (target line : String) : Option (String × List Char) := do
  let name := line.toList.takeWhile (· ≠ '(')
  let rest ← between? ("(&" ++ target) ");" (line.toList.drop name.length)
  return (String.ofList name, rest)

def nullaryMacros : List (String × Value) :=
  [("ZVAL_NULL", .null), ("ZVAL_TRUE", .bool true), ("ZVAL_FALSE", .bool false),
    ("ZVAL_EMPTY_ARRAY", .emptyArray)]

/-- A literal is copied with as many bytes as its size says, less one for the byte that ends it. -/
def newString? (handle : List Char) (line : String) : Option (List UInt8) := do
  let text ← between? ("zend_string *" ++ String.ofList handle ++ " = zend_string_init(")
    " - 1, 1);" line.toList
  let (bytes, rest) ← cDialect.literal? text
  let sized ← between? ", sizeof(" ")" rest
  let (counted, behind) ← cDialect.literal? sized
  if behind = [] then some ((bytes ++ [0]).take counted.length) else none

def stored? : String × List Char → Option Value
  | (name, []) => nullaryMacros.lookup name
  | ("ZVAL_LONG", ',' :: ' ' :: text) => (cLong? text).map .int
  | ("ZVAL_DOUBLE", ',' :: ' ' :: text) => (cDouble? text).map .ofFloat
  | _ => none

def given? (make : String) : String × List Char → Option Value
  | ("ZVAL_STR", ',' :: ' ' :: handle) => (newString? handle make).map .string
  | _ => none

/-- The value that statements give to the variable `target`. -/
def cValue? (target : String) : List String → Option Value
  | [line] => (operation? target line).bind stored?
  | [make, line] => (operation? target line).bind (given? make)
  | _ => none

/-! Numbers. -/

theorem eq_zero_of_head?_toDigits {n : Nat} (h : (Nat.toDigits 10 n).head? = some '0') :
    n = 0 := by
  induction n using Nat.strong_induction_on with
  | _ n ih =>
    by_cases hn : n < 10
    · have hdigit : ∀ k < 10, Nat.digitChar k = '0' → k = 0 := by decide
      rw [Nat.toDigits_of_lt_base hn] at h
      exact hdigit n hn (Option.some.inj h)
    · rw [Nat.toDigits_of_base_le (by decide) (not_lt.mp hn),
        List.head?_append_of_ne_nil _ Nat.toDigits_ne_nil] at h
      have := ih (n / 10) (by omega) h
      omega

theorem natural?_toDigits (n : Nat) : natural? (Nat.toDigits 10 n) = some n := by
  unfold natural?
  rw [if_neg, number?_toDigits]
  rintro ⟨hhead, hne⟩
  rw [eq_zero_of_head?_toDigits hhead] at hne
  exact hne (Nat.toDigits_zero 10)

theorem any_head?_toDigits (n : Nat) : (Nat.toDigits 10 n).head?.any Char.isDigit = true := by
  obtain ⟨c, rest, hc⟩ := List.exists_cons_of_ne_nil (Nat.toDigits_ne_nil (n := n) (b := 10))
  have hdigit : c.isDigit = true := isDigit_of_mem_toDigits (hc ▸ List.mem_cons_self)
  rw [hc]
  exact hdigit

theorem not_any_toDigits (n : Nat) :
    ((Nat.toDigits 10 n).any fun c => c = '.' || c = 'e') = false := by
  rw [List.any_eq_false]
  intro c hc hpoint
  rw [Bool.or_eq_true, decide_eq_true_iff, decide_eq_true_iff] at hpoint
  have hdigit := isDigit_of_mem_toDigits hc
  rcases hpoint with rfl | rfl <;> contradiction

/-! What a text may be that begins with a digit. -/

section digit

variable {text : List Char} (h : text.head?.any Char.isDigit = true)

include h

theorem phpAtom?_of_digit : phpAtom? text = phpNumber? text := by
  unfold phpAtom?
  split
  · contradiction
  · exact if_pos h
  · contradiction

theorem signed?_of_digit (read? : List Char → Option α) (negate? : α → Option α) :
    signed? read? negate? text = read? text := by
  unfold signed?
  split
  · contradiction
  · rfl

theorem ne_of_digit {name : String} {c : Char} (hname : name.toList.head? = some c)
    (hc : c.isDigit = false) : text ≠ name.toList := by
  rintro rfl
  rw [hname, Option.any_some, hc] at h
  contradiction

end digit

theorem phpAtom?_toDigits (n : Nat) : phpAtom? (Nat.toDigits 10 n) =
    some (if n < 2 ^ 63 then .int (Int64.ofInt n) else .float (.round n)) := by
  rw [phpAtom?_of_digit (any_head?_toDigits n)]
  unfold phpNumber?
  rw [if_neg (by rw [not_any_toDigits]; exact Bool.false_ne_true), natural?_toDigits,
    Option.map_some]

theorem cWord?_toDigits {n : Nat} (h : n < 2 ^ 63) :
    cWord? (Nat.toDigits 10 n) = some (Int64.ofInt n) := by
  unfold cWord?
  rw [if_neg (ne_of_digit (any_head?_toDigits n) rfl rfl), natural?_toDigits, Option.bind_some,
    if_pos h]

theorem phpAtom?_text (d : Decimal) : phpAtom? d.text = some (.ofFloat (.round d.value)) := by
  rw [phpAtom?_of_digit d.any_head?_text]
  unfold phpNumber?
  rw [if_pos d.any_text, d.float?_text, Option.map_some]

theorem cMagnitude?_text (d : Decimal) : cMagnitude? d.text = some (.round d.value) := by
  unfold cMagnitude?
  rw [if_neg (ne_of_digit d.any_head?_text rfl rfl), if_neg (ne_of_digit d.any_head?_text rfl rfl),
    d.float?_text]

theorem signed?_toString (read? : List Char → Option α) (negate? : α → Option α) (n : Int) :
    signed? read? negate? (toString n).toList =
      if n < 0 then (read? (Nat.toDigits 10 n.natAbs)).bind negate?
      else read? (Nat.toDigits 10 n.natAbs) := by
  rw [toList_toString_int]
  split
  · rfl
  · exact signed?_of_digit (any_head?_toDigits _) read? negate?

/-! Integers. -/

theorem natAbs_toInt_lt_iff (n : Int64) : n.toInt.natAbs < 2 ^ 63 ↔ n ≠ Int64.minValue := by
  have hlow : -9223372036854775808 ≤ n.toInt := n.le_toInt
  have hhigh : n.toInt < 9223372036854775808 := n.toInt_lt
  have hmin : n = Int64.minValue ↔ n.toInt = -9223372036854775808 := by
    rw [← Int64.toInt_inj, Int64.toInt_minValue]
    norm_num
  rw [ne_eq, hmin]
  norm_num
  omega

theorem neg_ofInt_natAbs {n : Int64} (h : n.toInt < 0) : -Int64.ofInt n.toInt.natAbs = n := by
  have habs : (n.toInt.natAbs : Int) = -n.toInt := by omega
  rw [habs, Int64.ofInt_neg, Int64.neg_neg, Int64.ofInt_toInt]

theorem ofInt_natAbs {n : Int64} (h : ¬ n.toInt < 0) : Int64.ofInt n.toInt.natAbs = n := by
  rw [Int.natAbs_of_nonneg (not_lt.mp h), Int64.ofInt_toInt]

theorem ofInt_natCast_ne_minValue {k : Nat} (h : k < 2 ^ 63) :
    Int64.ofInt k ≠ Int64.minValue := by
  intro heq
  have hbound : (k : Int) < 2 ^ 63 := by exact_mod_cast h
  have hnonneg := Int.natCast_nonneg k
  have hto := congrArg Int64.toInt heq
  rw [Int64.toInt_ofInt_of_le (by linarith) hbound, Int64.toInt_minValue] at hto
  linarith

/-- The text of the least integer is read as a float: the minus is applied to a number that is too
large for an integer. -/
theorem phpValue?_int (n : Int64) : phpValue? (toString n.toInt).toList =
    if n = Int64.minValue then some (.ofFloat (Binary64.round (2 ^ 63)).negate)
    else some (.int n) := by
  have hbound := natAbs_toInt_lt_iff n
  unfold phpValue?
  rw [signed?_toString, phpAtom?_toDigits, Option.bind_some]
  by_cases hmin : n = Int64.minValue
  · have hsign : n.toInt < 0 := by
      rw [hmin]
      decide
    have habs : n.toInt.natAbs = 2 ^ 63 := by
      rw [hmin, Int64.toInt_minValue]
      rfl
    rw [if_pos hsign, if_pos hmin, if_neg (fun hlt => hbound.mp hlt hmin), habs]
    push_cast
    rfl
  · have hlt := hbound.mpr hmin
    rw [if_neg hmin, if_pos hlt]
    split
    · rename_i hsign
      unfold Value.negate?
      dsimp only
      rw [if_neg (ofInt_natCast_ne_minValue hlt), neg_ofInt_natAbs hsign]
    · rename_i hsign
      rw [ofInt_natAbs hsign]

theorem cLong?_longExpression (n : Int64) :
    cLong? (Initial.longExpression n).toList = some n := by
  unfold Initial.longExpression cLong?
  by_cases hmin : n = Int64.minValue
  · rw [if_pos hmin, hmin]
    rfl
  · have hlt := (natAbs_toInt_lt_iff n).mpr hmin
    rw [if_neg hmin, signed?_toString, cWord?_toDigits hlt, Option.bind_some]
    split
    · rename_i hsign
      rw [if_neg (ofInt_natCast_ne_minValue hlt), neg_ofInt_natAbs hsign]
    · rename_i hsign
      rw [ofInt_natAbs hsign]

/-! Floats. -/

theorem phpValue?_float (x : Binary64) : phpValue? x.text.toList = some (.ofFloat x) := by
  rcases x.cases_text with hnan | rfl | rfl | ⟨hfinite, ⟨htext, hsign⟩ | ⟨htext, hsign⟩⟩
  · have htext : x.text = "NAN" := if_pos hnan
    rw [htext, Value.ofFloat_nan hnan]
    decide
  · decide
  · decide
  · unfold phpValue?
    rw [htext, signed?_of_digit x.shortest.any_head?_text, phpAtom?_text,
      x.round_shortest hfinite, ← hsign]
  · have hmagnitude : x.magnitude.isNaN = false :=
      Binary64.isNaN_eq_false (x.exponentField_magnitude ▸ hfinite)
    rw [htext]
    show (phpAtom? x.shortest.text).bind _ = _
    rw [phpAtom?_text, x.round_shortest hfinite, Option.bind_some,
      Value.negate?_ofFloat hmagnitude, ← hsign]

theorem cDouble?_doubleExpression (x : Binary64) :
    (cDouble? (Initial.doubleExpression x).toList).map Value.ofFloat = some (.ofFloat x) := by
  rcases x.cases_text with hnan | rfl | rfl | ⟨hfinite, hcases⟩
  · have htext : Initial.doubleExpression x = "ZEND_NAN" := if_pos hnan
    rw [htext, Value.ofFloat_nan hnan]
    decide
  · decide
  · decide
  · have hexpression : Initial.doubleExpression x = x.text := by
      unfold Initial.doubleExpression
      rw [Binary64.isNaN_eq_false hfinite, Binary64.isInfinite_eq_false hfinite]
      rfl
    rcases hcases with ⟨htext, hsign⟩ | ⟨htext, hsign⟩
    · unfold cDouble?
      rw [hexpression, htext, signed?_of_digit x.shortest.any_head?_text, cMagnitude?_text,
        x.round_shortest hfinite, ← hsign, Option.map_some]
    · rw [hexpression, htext]
      show ((cMagnitude? x.shortest.text).bind _).map _ = _
      rw [cMagnitude?_text, x.round_shortest hfinite, Option.bind_some, ← hsign, Option.map_some]

/-! Statements. -/

theorem operation?_call {name : String} (h : '(' ∉ name.toList) (target rest : String) :
    operation? target (name ++ "(" ++ ("&" ++ target ++ rest) ++ ")" ++ ";") =
      some (name, rest.toList) := by
  have hstop := forall_ne_of_not_mem h
  have hline : (name ++ "(" ++ ("&" ++ target ++ rest) ++ ")" ++ ";").toList =
      name.toList ++ '(' :: ('&' :: (target.toList ++ (rest.toList ++ ");".toList))) := by
    simp
  have hfront : '(' :: ('&' :: (target.toList ++ (rest.toList ++ ");".toList))) =
      ("(&" ++ target).toList ++ (rest.toList ++ ");".toList) := by
    simp
  unfold operation?
  rw [hline, takeWhile_stop hstop (by decide)]
  dsimp only
  rw [List.drop_left, hfront, between?_append, String.ofList_toList]
  rfl

theorem newString?_makeString (handle s : String) :
    newString? handle.toList (Statement.makeString handle s).text = some (Text.bytes s) := by
  let literal := Text.CLiteral.quote s
  have hline : (Statement.makeString handle s).text.toList =
      ("zend_string *" ++ handle ++ " = zend_string_init(").toList ++
        ((literal.toList ++ (", sizeof(".toList ++ (literal.toList ++ ")".toList))) ++
          " - 1, 1);".toList) := by
    show (("zend_string *" ++ handle ++ " = " ++ ("zend_string_init(" ++ literal ++
      ", sizeof(" ++ literal ++ ") - 1, 1)")) ++ ";").toList = _
    simp
  have hread := cDialect_literal?_quote s
  have hsize := hread []
  rw [List.append_nil] at hsize
  unfold newString?
  rw [hline, String.ofList_toList]
  simp only [literal, between?_append, hread, hsize, Option.bind_eq_bind, Option.bind_some,
    if_true, List.take_left]

theorem operation?_nullary {name : String} (h : '(' ∉ name.toList) (target : String) :
    operation? target (Header.call name ["&" ++ target] ++ ";") = some (name, []) := by
  have hcall : Header.call name ["&" ++ target] ++ ";" =
      name ++ "(" ++ ("&" ++ target ++ "") ++ ")" ++ ";" := by
    simp [Header.call]
  rw [hcall, operation?_call h]
  rfl

theorem operation?_binary {name : String} (h : '(' ∉ name.toList) (target argument : String) :
    operation? target (Header.call name ["&" ++ target, argument] ++ ";") =
      some (name, ',' :: ' ' :: argument.toList) := by
  have hcall : Header.call name ["&" ++ target, argument] ++ ";" =
      name ++ "(" ++ ("&" ++ target ++ (", " ++ argument)) ++ ")" ++ ";" := by
    simp [Header.call, String.append_assoc]
  rw [hcall, operation?_call h, String.toList_append]
  rfl

theorem cValue?_setValue {initial : Initial} {value : Value} (target : String)
    (h : initial.value? = some value) :
    cValue? target [(Statement.setValue target initial).text] = some value := by
  show (operation? target (initial.store target ++ ";")).bind stored? = some value
  unfold Initial.store
  cases initial with
  | undefined => contradiction
  | null =>
    rw [operation?_nullary (by decide)]
    exact h
  | bool b =>
    cases b
    · rw [operation?_nullary (by decide)]
      exact h
    · rw [operation?_nullary (by decide)]
      exact h
  | long n =>
    rw [operation?_binary (by decide), Option.bind_some]
    show (cLong? _).map _ = _
    rw [cLong?_longExpression]
    exact h
  | double x =>
    rw [operation?_binary (by decide), Option.bind_some]
    show (cDouble? _).map _ = _
    rw [cDouble?_doubleExpression]
    exact h
  | emptyArray =>
    rw [operation?_nullary (by decide)]
    exact h

theorem cValue?_giveString (target handle s : String) :
    cValue? target
        [(Statement.makeString handle s).text, (Statement.giveString target handle).text] =
      some (.string (Text.bytes s)) := by
  show (operation? target (Header.call "ZVAL_STR" ["&" ++ target, handle] ++ ";")).bind _ = _
  rw [operation?_binary (by decide), Option.bind_some]
  show (newString? handle.toList _).map _ = _
  rw [newString?_makeString, Option.map_some]

/-! Both encodings. -/

variable {v : DefaultValue} {value : Value}

theorem phpValue?_quote (s : String) :
    phpValue? (Text.PhpLiteral.quote s).toList = some (.string (Text.bytes s)) := by
  have hread := phpDialect_literal?_quote s []
  have hquote : (Text.PhpLiteral.quote s).toList =
      '"' :: (s.toList.flatMap Text.PhpLiteral.escape ++ ['"']) := String.toList_ofList
  rw [List.append_nil, hquote] at hread
  rw [hquote]
  show (phpDialect.literal? _).bind
    (fun read => if read.2 = [] then some (Value.string read.1) else none) = _
  rw [hread]
  rfl

theorem phpValue?_literal (h : v.value? = some value) : phpValue? v.literal.toList =
    if v = .int Int64.minValue then some (.ofFloat (Binary64.round (2 ^ 63)).negate)
    else some value := by
  cases v with
  | null =>
    cases h
    rfl
  | bool b =>
    cases h
    cases b <;> decide
  | int n =>
    cases h
    show phpValue? (toString n.toInt).toList = _
    rw [phpValue?_int]
    simp
  | float x =>
    cases h
    exact phpValue?_float x
  | string s =>
    cases h
    exact phpValue?_quote s
  | emptyArray =>
    cases h
    decide
  | constant => contradiction

theorem cValue?_storeDefault {p : Property} (hdefault : p.default? = some v)
    (h : v.value? = some value) : ∃ statements, storeDefault p = .ok statements ∧
      cValue? (Variable.value p.name) (statements.map (·.text)) = some value := by
  unfold storeDefault
  rw [hdefault]
  cases v with
  | null | bool _ | int _ | float _ | emptyArray => exact ⟨_, rfl, cValue?_setValue _ h⟩
  | string s =>
    cases h
    exact ⟨_, rfl, cValue?_giveString _ _ s⟩
  | constant => contradiction

/-- What a routine stores for a default that is not a constant is the value that is meant, of the
kind that is meant. Argument information has it evaluate to the same value, with one exception: the
least integer becomes a float. -/
theorem defaults_read_alike_iff {p : Property} (hdefault : p.default? = some v)
    (hclass : v.class? = none) :
    ∃ value statements, v.value? = some value ∧ v.kind? = some value.kind ∧
      storeDefault p = .ok statements ∧
      cValue? (Variable.value p.name) (statements.map (·.text)) = some value ∧
      (phpValue? v.literal.toList = some value ↔ v ≠ .int Int64.minValue) := by
  obtain ⟨value, hvalue⟩ : ∃ value, v.value? = some value := by
    cases v with
    | constant => contradiction
    | _ => exact ⟨_, rfl⟩
  obtain ⟨statements, hstore, hread⟩ := cValue?_storeDefault hdefault hvalue
  have hkind : v.kind? = some value.kind := by
    rw [v.kind?_eq, hvalue, Option.map_some]
  refine ⟨value, statements, hvalue, hkind, hstore, hread, ?_⟩
  rw [phpValue?_literal hvalue]
  by_cases hmin : v = .int Int64.minValue
  · subst hmin
    cases hvalue
    simp [Value.ofFloat]
  · simp [hmin]

def price : Property where
  name := "price"
  default? := some (.string "$5 \"net\"\n")

theorem defaults_read_alike_iff_price :
    ∃ statements, storeDefault price = .ok statements ∧
      cValue? "property_price_default_value" (statements.map (·.text)) =
        some (.string (Text.bytes "$5 \"net\"\n")) ∧
      phpValue? "\"\\$5 \\\"net\\\"\\n\"".toList =
        some (.string (Text.bytes "$5 \"net\"\n")) := by
  obtain ⟨value, statements, hvalue, -, hstore, hread, hphp⟩ :=
    defaults_read_alike_iff (p := price) rfl rfl
  cases hvalue
  exact ⟨statements, hstore, hread, hphp.mpr (by decide)⟩

def least : Property where
  name := "least"
  default? := some (.int Int64.minValue)

/-- The least integer is stored as it is, and its text evaluates to a float. -/
theorem not_defaults_read_alike_least :
    ∃ statements, storeDefault least = .ok statements ∧
      cValue? "property_least_default_value" (statements.map (·.text)) =
        some (.int Int64.minValue) ∧
      (DefaultValue.int Int64.minValue).kind? = some .int ∧
      (phpValue? (DefaultValue.int Int64.minValue).literal.toList).map (·.kind) = some .float := by
  obtain ⟨statements, hstore, hread⟩ := cValue?_storeDefault (p := least) rfl rfl
  refine ⟨statements, hstore, hread, rfl, ?_⟩
  rw [phpValue?_literal rfl, if_pos rfl]
  rfl

end Reading

end ExtensionHeader
