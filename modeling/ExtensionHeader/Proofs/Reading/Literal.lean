import ExtensionHeader.Text

/-! How string literals are read. C and PHP both write them between double quotes, with escapes that
begin with a backslash; they differ in what may follow it, and in what may stand for itself. The
bytes of a text are written so that they are read back in both. -/
namespace ExtensionHeader

theorem Text.bytes_injective {s t : String} (h : bytes s = bytes t) : s = t := by
  rw [← String.toByteArray_inj, ← String.utf8Encode_toList, ← String.utf8Encode_toList]
  exact congrArg List.toByteArray h

namespace Reading

/-- What characters stand for in the literals of a language. Escapes by octal digits are common. -/
structure Dialect where
  plain? : Char → Option (List UInt8)
  escaped? : Char → Option (List UInt8)

inductive Place where
  | plain
  | escape
  /-- Behind digits of an octal escape, of which a number may follow. -/
  | octal (value following : Nat)
deriving DecidableEq, Repr

def Place.pending : Place → List UInt8
  | octal value _ => [UInt8.ofNat value]
  | _ => []

def octalDigit? (c : Char) : Option Nat :=
  if '0' ≤ c ∧ c ≤ '7' then some (c.toNat - '0'.toNat) else none

namespace Dialect

variable (d : Dialect)

def enter? (c : Char) : Option (Place × List UInt8) :=
  if c = '\\' then some (.escape, []) else (d.plain? c).map fun out => (.plain, out)

/-- One character inside a literal. An octal escape has as many digits as follow, up to three. -/
def step? : Place → Char → Option (Place × List UInt8)
  | .plain, c => d.enter? c
  | .escape, c =>
    match octalDigit? c with
    | some digit => some (.octal digit 2, [])
    | none => (d.escaped? c).map fun out => (.plain, out)
  | .octal value following, c =>
    match octalDigit? c with
    | some digit =>
      let value := 8 * value + digit
      if following = 1 then some (.plain, [UInt8.ofNat value])
      else some (.octal value (following - 1), [])
    | none => (d.enter? c).map fun (place, out) => (place, UInt8.ofNat value :: out)

def closes (place : Place) (c : Char) : Bool := c = '"' && place ≠ .escape

def run? : Place → List Char → Option (Place × List UInt8)
  | place, [] => some (place, [])
  | place, c :: rest =>
    if closes place c then none
    else (d.step? place c).bind fun (place, out) =>
      (run? place rest).map fun (last, more) => (last, out ++ more)

def scan? : Place → List Char → Option (List UInt8 × List Char)
  | _, [] => none
  | place, c :: rest =>
    if closes place c then some (place.pending, rest)
    else (d.step? place c).bind fun (place, out) =>
      (scan? place rest).map fun (more, behind) => (out ++ more, behind)

def literal? : List Char → Option (List UInt8 × List Char)
  | '"' :: text => d.scan? .plain text
  | _ => none

variable {d} {place next : Place} {front : List Char} {out : List UInt8}

theorem run?_cons_eq_some {c : Char} (h : d.run? place (c :: front) = some (next, out)) :
    closes place c = false ∧ ∃ second first more, d.step? place c = some (second, first) ∧
      d.run? second front = some (next, more) ∧ out = first ++ more := by
  rw [run?] at h
  split at h
  · contradiction
  · rename_i hcloses
    obtain ⟨⟨second, first⟩, hstep, hmap⟩ := Option.bind_eq_some_iff.mp h
    obtain ⟨⟨last, more⟩, hrun, heq⟩ := Option.map_eq_some_iff.mp hmap
    cases heq
    exact ⟨Bool.eq_false_iff.mpr hcloses, second, first, more, hstep, hrun, rfl⟩

theorem run?_append (h : d.run? place front = some (next, out)) (rest : List Char) :
    d.run? place (front ++ rest) =
      (d.run? next rest).map fun (last, more) => (last, out ++ more) := by
  induction front generalizing place out with
  | nil =>
    cases h
    simp
  | cons c front ih =>
    obtain ⟨hcloses, second, first, more, hstep, hrun, rfl⟩ := run?_cons_eq_some h
    rw [List.cons_append, run?, hcloses, hstep]
    simp [ih hrun, Function.comp_def]

theorem scan?_append (h : d.run? place front = some (next, out)) (rest : List Char) :
    d.scan? place (front ++ rest) =
      (d.scan? next rest).map fun (more, behind) => (out ++ more, behind) := by
  induction front generalizing place out with
  | nil =>
    cases h
    simp
  | cons c front ih =>
    obtain ⟨hcloses, second, first, more, hstep, hrun, rfl⟩ := run?_cons_eq_some h
    rw [List.cons_append, scan?, hcloses, hstep]
    simp [ih hrun, Function.comp_def]

theorem run?_flatMap {α : Type} {write : α → List Char} {value : α → List UInt8}
    (h : ∀ x, d.run? .plain (write x) = some (.plain, value x)) (xs : List α) :
    d.run? .plain (xs.flatMap write) = some (.plain, xs.flatMap value) := by
  induction xs with
  | nil => rfl
  | cons x rest ih =>
    rw [List.flatMap_cons, List.flatMap_cons, run?_append (h x), ih]
    rfl

theorem literal?_quoted (h : d.run? .plain front = some (.plain, out)) (rest : List Char) :
    d.literal? ('"' :: front ++ '"' :: rest) = some (out, rest) := by
  show d.scan? .plain (front ++ '"' :: rest) = some (out, rest)
  rw [scan?_append h, scan?]
  simp [closes, Place.pending]

end Dialect

/-- Literals of C. The reader knows the escapes for single characters and those by octal digits; a
literal ends on its line. -/
def cDialect : Dialect where
  plain? c := if c = '\n' then none else some (String.utf8EncodeChar c)
  escaped? c := ([('\\', [92]), ('"', [34]), ('?', [63]), ('n', [10]), ('r', [13]), ('t', [9]),
    ('a', [7]), ('b', [8]), ('f', [12]), ('v', [11])] : List (Char × List UInt8)).lookup c

theorem cDialect_run?_escape (b : UInt8) :
    cDialect.run? .plain (Text.CLiteral.escape b) = some (.plain, [b]) := by
  have hall : ∀ n < 256, cDialect.run? .plain (Text.CLiteral.escape (UInt8.ofNat n)) =
      some (.plain, [UInt8.ofNat n]) := by decide +kernel
  have hb := hall b.toNat b.toNat_lt
  rwa [UInt8.ofNat_toNat] at hb

theorem cDialect_literal?_quote (s : String) (rest : List Char) :
    cDialect.literal? ((Text.CLiteral.quote s).toList ++ rest) = some (Text.bytes s, rest) := by
  have hrun := Dialect.run?_flatMap cDialect_run?_escape (Text.bytes s)
  rw [List.flatMap_singleton'] at hrun
  unfold Text.CLiteral.quote
  rw [String.toList_ofList, List.append_assoc]
  exact Dialect.literal?_quoted hrun rest

/-- Literals of PHP. Behind a backslash, a character without a meaning of its own stands for both;
the reader knows no escapes by hexadecimal digits, and no interpolation, which a dollar sign that
stands for itself might begin. -/
def phpDialect : Dialect where
  plain? c := if c = '$' then none else some (String.utf8EncodeChar c)
  escaped? c :=
    if c = 'x' ∨ c = 'u' then none
    else some ((([('\\', [92]), ('"', [34]), ('$', [36]), ('n', [10]), ('r', [13]), ('t', [9]),
      ('e', [27]), ('f', [12]), ('v', [11])] : List (Char × List UInt8)).lookup c).getD
        (92 :: String.utf8EncodeChar c))

theorem phpDialect_run?_escape (c : Char) :
    phpDialect.run? .plain (Text.PhpLiteral.escape c) =
      some (.plain, String.utf8EncodeChar c) := by
  unfold Text.PhpLiteral.escape
  split
  · decide
  · decide
  · decide
  · decide
  · rename_i hbackslash hquote hdollar _
    have hcloses : Dialect.closes .plain c = false := by
      unfold Dialect.closes
      simpa using hquote
    have hplain : phpDialect.plain? c = some (String.utf8EncodeChar c) := if_neg hdollar
    have hstep : phpDialect.step? .plain c = some (.plain, String.utf8EncodeChar c) := by
      show phpDialect.enter? c = _
      unfold Dialect.enter?
      rw [if_neg hbackslash, hplain, Option.map_some]
    rw [Dialect.run?, hcloses, hstep]
    simp [Dialect.run?]

theorem phpDialect_literal?_quote (s : String) (rest : List Char) :
    phpDialect.literal? ((Text.PhpLiteral.quote s).toList ++ rest) = some (Text.bytes s, rest) := by
  have hrun := Dialect.run?_flatMap phpDialect_run?_escape s.toList
  unfold Text.PhpLiteral.quote
  rw [String.toList_ofList, List.append_assoc]
  exact Dialect.literal?_quoted hrun rest

end Reading

end ExtensionHeader
