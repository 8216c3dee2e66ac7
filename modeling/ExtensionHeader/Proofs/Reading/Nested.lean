import ExtensionHeader.DefaultValue
import ExtensionHeader.Proofs.Reading.Literal
import Mathlib.Data.List.Basic
import Mathlib.Data.Nat.Digits.Defs

/-! Literals inside literals. Argument information gives a string as a PHP literal, and the text of
that literal as a C literal, so the compiler reads it first and PHP reads what the compiler has read.
The C literal has no character that a compiler might take for something else. -/
namespace ExtensionHeader

namespace Text

def ofBytes? (bytes : List UInt8) : Option String := String.fromUTF8? bytes.toByteArray

theorem ofBytes?_bytes (s : String) : ofBytes? (bytes s) = some s := by
  have hbytes : (bytes s).toByteArray = s.toByteArray := String.utf8Encode_toList
  unfold ofBytes?
  rw [hbytes]
  simp only [String.fromUTF8?, dif_pos s.isValidUTF8]
  rfl

theorem eq_ofNat_of_mem_utf8EncodeChar {c : Char} {b : UInt8} (h : b ∈ String.utf8EncodeChar c)
    (hascii : b.toNat < 128) : c = Char.ofNat b.toNat := by
  have hlow : ∀ v : Nat, v ≤ 127 → (UInt8.ofNat v).toNat = v := by
    intro v hv
    rw [UInt8.toNat_ofNat']
    omega
  have hhigh : ∀ v : Nat, 128 ≤ v → v < 256 → ¬ (UInt8.ofNat v).toNat < 128 := by
    intro v hv hbound
    rw [UInt8.toNat_ofNat']
    omega
  have hc : c.val.toNat ≤ 127 := by
    apply Decidable.byContradiction
    intro hwide
    unfold String.utf8EncodeChar at h
    simp only [hwide, if_false] at h
    split at h
    · simp only [List.mem_cons, List.not_mem_nil, or_false] at h
      rcases h with rfl | rfl <;> exact hhigh _ (by omega) (by omega) hascii
    · split at h
      · simp only [List.mem_cons, List.not_mem_nil, or_false] at h
        rcases h with rfl | rfl | rfl <;> exact hhigh _ (by omega) (by omega) hascii
      · simp only [List.mem_cons, List.not_mem_nil, or_false] at h
        rcases h with rfl | rfl | rfl | rfl <;> exact hhigh _ (by omega) (by omega) hascii
  unfold String.utf8EncodeChar at h
  simp only [hc, if_true, List.mem_singleton] at h
  rw [h, hlow _ hc]
  exact (Char.ofNat_toNat c).symm

/-! Backslashes. -/

/-- Whether a backslash at the end of the text takes along the character that follows. One that is
itself taken along does not. -/
def takesNext (text : List Char) : Bool := text.foldl (fun taken c => !taken && c = '\\') false

def Escaped (c : Char) (text : List Char) : Prop :=
  ∀ front rest, text = front ++ c :: rest → takesNext front = true

theorem takesNext_append {front : List Char} (h : takesNext front = false) (rest : List Char) :
    takesNext (front ++ rest) = takesNext rest := by
  unfold takesNext at h ⊢
  rw [List.foldl_append, h]

theorem eq_backslash_of_takesNext {front : List Char} {c : Char}
    (h : takesNext (front ++ [c]) = true) : c = '\\' := by
  unfold takesNext at h
  rw [List.foldl_append] at h
  simp at h
  exact h.2

section Escaped

variable {c : Char} {text : List Char}

theorem escaped_iff : Escaped c text ↔
    ∀ i < text.length, text[i]? = some c → takesNext (text.take i) = true := by
  constructor
  · intro h i hi hc
    obtain ⟨_, heq⟩ := List.getElem?_eq_some_iff.mp hc
    apply h _ (text.drop (i + 1))
    rw [← heq, ← List.drop_eq_getElem_cons hi, List.take_append_drop]
  · rintro h front rest rfl
    have hfront := h front.length (by simp) (by simp)
    rwa [List.take_left] at hfront

instance : Decidable (Escaped c text) := decidable_of_iff _ escaped_iff.symm

theorem Escaped.append {front : List Char} (hfront : Escaped c front)
    (hends : takesNext front = false) (htext : Escaped c text) : Escaped c (front ++ text) := by
  intro before rest h
  rcases List.append_eq_append_iff.mp h with ⟨more, rfl, hmore⟩ | ⟨more, rfl, hmore⟩
  · rw [takesNext_append hends]
    exact htext more rest hmore
  · cases more with
    | nil =>
      have hfirst : takesNext [] = true := htext [] rest hmore.symm
      contradiction
    | cons d more =>
      obtain ⟨rfl, -⟩ := List.cons.inj hmore
      exact hfront before more rfl

theorem takesNext_flatMap {write : α → List Char} (hends : ∀ x, takesNext (write x) = false)
    (xs : List α) : takesNext (xs.flatMap write) = false := by
  induction xs with
  | nil => rfl
  | cons x rest ih => rw [List.flatMap_cons, takesNext_append (hends x), ih]

theorem escaped_flatMap {write : α → List Char} (hends : ∀ x, takesNext (write x) = false)
    (hescaped : ∀ x, Escaped c (write x)) (xs : List α) : Escaped c (xs.flatMap write) := by
  induction xs with
  | nil =>
    intro front rest h
    cases front <;> contradiction
  | cons x rest ih =>
    rw [List.flatMap_cons]
    exact (hescaped x).append (hends x) ih

end Escaped

/-! The C literal. -/
namespace CLiteral

/-- A literal that every compiler reads alike. -/
structure WellFormed (text : List Char) : Prop where
  printable : ∀ c ∈ text, 32 ≤ c.toNat ∧ c.toNat ≤ 126
  /-- The quotes inside are escaped and the one at the end is not. -/
  quoted : ∃ inner, text = '"' :: inner ++ ['"'] ∧ Escaped '"' inner ∧ takesNext inner = false
  /-- No trigraph can form. -/
  questions : ¬ ['?', '?'] <:+: text

theorem forall_escape (P : List Char → Prop) (h : ∀ n < 256, P (escape (UInt8.ofNat n)))
    (b : UInt8) : P (escape b) := by
  have hb := h b.toNat b.toNat_lt
  rwa [UInt8.ofNat_toNat] at hb

theorem takesNext_escape (b : UInt8) : takesNext (escape b) = false :=
  forall_escape (takesNext · = false) (by decide +kernel) b

theorem escaped_quote_escape (b : UInt8) : Escaped '"' (escape b) :=
  forall_escape (Escaped '"') (by decide +kernel) b

theorem escaped_question_escape (b : UInt8) : Escaped '?' (escape b) :=
  forall_escape (Escaped '?') (by decide +kernel) b

theorem printable_escape (b : UInt8) : ∀ c ∈ escape b, 32 ≤ c.toNat ∧ c.toNat ≤ 126 := by
  have hall : (escape b).all (fun c => decide (32 ≤ c.toNat ∧ c.toNat ≤ 126)) = true :=
    forall_escape (·.all (fun c => decide (32 ≤ c.toNat ∧ c.toNat ≤ 126)) = true)
      (by decide +kernel) b
  exact fun c hc => of_decide_eq_true (List.all_eq_true.mp hall c hc)

theorem toList_quote (s : String) :
    (quote s).toList = '"' :: (bytes s).flatMap escape ++ ['"'] :=
  String.toList_ofList

theorem wellFormed_quote (s : String) : WellFormed (quote s).toList where
  printable := by
    intro c hc
    rw [toList_quote, List.mem_append, List.mem_cons, List.mem_singleton] at hc
    rcases hc with (rfl | hc) | rfl
    · decide
    · obtain ⟨b, -, hb⟩ := List.mem_flatMap.mp hc
      exact printable_escape b c hb
    · decide
  quoted := ⟨_, toList_quote s, escaped_flatMap takesNext_escape escaped_quote_escape _,
    takesNext_flatMap takesNext_escape _⟩
  questions := by
    rintro ⟨before, after, h⟩
    have hquote : Escaped '?' ['"'] := by decide
    have hinner : Escaped '?' ((bytes s).flatMap escape) :=
      escaped_flatMap takesNext_escape escaped_question_escape _
    have hall : Escaped '?' (quote s).toList := by
      rw [toList_quote, ← List.singleton_append]
      exact (hquote.append rfl hinner).append (takesNext_flatMap takesNext_escape _) hquote
    -- What stands before the second one is no backslash but the first one.
    have hsecond : takesNext (before ++ ['?']) = true := by
      apply hall _ after
      rw [← h]
      simp
    have := eq_backslash_of_takesNext hsecond
    contradiction

end CLiteral

/-! The PHP literal. -/
namespace PhpLiteral

def escapes : List (Char × Char) := [('\\', '\\'), ('"', '"'), ('$', '$'), ('\n', 'n')]

def replace (c : Char) (replacement text : List Char) : List Char :=
  text.flatMap fun d => if d = c then replacement else [d]

/-- One replacement after the other, each through the whole text. The backslashes come first, as
the other replacements put in more of them. -/
def replaceInTurn (text : List Char) : List Char :=
  escapes.foldl (fun text (c, letter) => replace c ['\\', letter] text) text

theorem replaceInTurn_eq (text : List Char) : replaceInTurn text = text.flatMap escape := by
  unfold replaceInTurn escapes replace
  simp only [List.foldl_cons, List.foldl_nil, List.flatMap_assoc]
  apply List.flatMap_congr
  intro c _
  fun_cases escape c with
  | case5 c hbackslash hquote hdollar hnewline =>
    rw [if_neg hbackslash, List.flatMap_singleton, if_neg hquote, List.flatMap_singleton,
      if_neg hdollar, List.flatMap_singleton, if_neg hnewline]
  | _ => decide

theorem takesNext_escape (c : Char) : takesNext (escape c) = false := by
  fun_cases escape c with
  | case5 c hbackslash => exact decide_eq_false hbackslash
  | _ => decide

theorem escaped_dollar_escape (c : Char) : Escaped '$' (escape c) := by
  fun_cases escape c with
  | case5 c _ _ hdollar =>
    intro front rest h
    have hmem : '$' ∈ [c] := h ▸ List.mem_append_right front List.mem_cons_self
    exact absurd (List.mem_singleton.mp hmem).symm hdollar
  | _ => decide

end PhpLiteral

end Text

/-! How PHP reads the bytes of a source text. -/
namespace Reading.Source

def backslash : UInt8 := '\\'.toUInt8

def quote : UInt8 := '"'.toUInt8

def dollar : UInt8 := '$'.toUInt8

def letters : List (UInt8 × UInt8) :=
  [('n', 10), ('t', 9), ('r', 13), ('v', 11), ('e', 27), ('f', 12), ('\\', 92), ('$', 36),
    ('"', 34)].map fun (letter, value) => (Char.toUInt8 letter, value)

def digit? (base : Nat) (b : UInt8) : Option Nat :=
  ("0123456789abcdef".toList.idxOf? (Char.ofNat b.toNat).toLower).filter (· < base)

def digits (base : Nat) : List UInt8 → List Nat
  | [] => []
  | b :: rest =>
    match digit? base b with
    | some digit => digit :: digits base rest
    | none => []

def number (base : Nat) (digits : List Nat) : Nat := Nat.ofDigits base digits.reverse

def unicode? (text : List UInt8) : Option (List UInt8 × Nat) :=
  let code := digits 16 text
  if code ≠ [] ∧ text[code.length]? = some '\x7d'.toUInt8 ∧ (number 16 code).isValidChar then
    some (String.utf8EncodeChar (Char.ofNat (number 16 code)), code.length + 3)
  else none

/-- What the text behind a backslash stands for, and how many of its bytes belong to the escape. A
byte without a meaning of its own stands for the backslash and itself. -/
def escape? : List UInt8 → Option (List UInt8 × Nat)
  | [] => none
  | b :: rest =>
    let octal := digits 8 ((b :: rest).take 3)
    let hexadecimal := digits 16 (rest.take 2)
    match letters.lookup b with
    | some value => some ([value], 1)
    | none =>
      if octal ≠ [] then some ([UInt8.ofNat (number 8 octal)], octal.length)
      else if (b = 'x'.toUInt8 ∨ b = 'X'.toUInt8) ∧ hexadecimal ≠ [] then
        some ([UInt8.ofNat (number 16 hexadecimal)], hexadecimal.length + 1)
      else if b = 'u'.toUInt8 ∧ rest.head? = some '\x7b'.toUInt8 then unicode? rest.tail
      else some ([backslash, b], 1)

/-- The value up to the quote that ends the literal, and what stands behind it. As many bytes as are
`taken` belong to an escape that has been read. A dollar sign that is not escaped might begin an
interpolation, so it is not read. -/
def contents? : Nat → List UInt8 → Option (List UInt8 × List UInt8)
  | _, [] => none
  | taken + 1, _ :: rest => contents? taken rest
  | 0, b :: rest =>
    if b = quote then some ([], rest)
    else if b = dollar then none
    else if b = backslash then
      (escape? rest).bind fun (value, taken) =>
        (contents? taken rest).map fun (more, behind) => (value ++ more, behind)
    else (contents? 0 rest).map fun (more, behind) => (b :: more, behind)

def literal? : List UInt8 → Option (List UInt8 × List UInt8)
  | [] => none
  | b :: text => if b = quote then contents? 0 text else none

theorem contents?_cons {b : UInt8} (hquote : b ≠ quote) (hdollar : b ≠ dollar)
    (hbackslash : b ≠ backslash) (rest : List UInt8) :
    contents? 0 (b :: rest) = (contents? 0 rest).map fun (more, behind) => (b :: more, behind) := by
  rw [contents?, if_neg hquote, if_neg hdollar, if_neg hbackslash]

theorem contents?_append {text : List UInt8}
    (h : ∀ b ∈ text, b ≠ quote ∧ b ≠ dollar ∧ b ≠ backslash) (rest : List UInt8) :
    contents? 0 (text ++ rest) =
      (contents? 0 rest).map fun (more, behind) => (text ++ more, behind) := by
  induction text with
  | nil => simp
  | cons b text ih =>
    obtain ⟨hquote, hdollar, hbackslash⟩ := h b List.mem_cons_self
    rw [List.cons_append, contents?_cons hquote hdollar hbackslash,
      ih fun b hb => h b (List.mem_cons_of_mem _ hb)]
    simp [Function.comp_def]

theorem contents?_letter {letter value : UInt8} (h : letters.lookup letter = some value)
    (rest : List UInt8) : contents? 0 (backslash :: letter :: rest) =
      (contents? 0 rest).map fun (more, behind) => (value :: more, behind) := by
  have hescape : escape? (letter :: rest) = some ([value], 1) := by
    unfold escape?
    simp only [h]
  rw [contents?, if_neg (by decide), if_neg (by decide), if_pos rfl, hescape]
  rfl

theorem contents?_escape (c : Char) (rest : List UInt8) :
    contents? 0 ((Text.PhpLiteral.escape c).flatMap String.utf8EncodeChar ++ rest) =
      (contents? 0 rest).map fun (more, behind) => (String.utf8EncodeChar c ++ more, behind) := by
  fun_cases Text.PhpLiteral.escape c with
  | case5 c hbackslash hquote hdollar =>
    rw [List.flatMap_singleton]
    apply contents?_append
    intro b hb
    have hb := Text.eq_ofNat_of_mem_utf8EncodeChar hb
    refine ⟨?_, ?_, ?_⟩
    · rintro rfl
      exact hquote (hb (by decide))
    · rintro rfl
      exact hdollar (hb (by decide))
    · rintro rfl
      exact hbackslash (hb (by decide))
  | _ => exact contents?_letter (by decide) rest

theorem contents?_flatMap (text : List Char) (rest : List UInt8) :
    contents? 0 ((text.flatMap Text.PhpLiteral.escape).flatMap String.utf8EncodeChar ++ rest) =
      (contents? 0 rest).map fun (more, behind) =>
        (text.flatMap String.utf8EncodeChar ++ more, behind) := by
  induction text with
  | nil => simp
  | cons c text ih =>
    rw [List.flatMap_cons, List.flatMap_append, List.append_assoc, contents?_escape, ih]
    simp [Function.comp_def]

theorem literal?_quote (s : String) :
    literal? (Text.bytes (Text.PhpLiteral.quote s)) = some (Text.bytes s, []) := by
  have hbytes : Text.bytes (Text.PhpLiteral.quote s) =
      quote :: ((s.toList.flatMap Text.PhpLiteral.escape).flatMap String.utf8EncodeChar ++
        [quote]) := by
    unfold Text.bytes Text.PhpLiteral.quote
    rw [String.toList_ofList, List.cons_append, List.flatMap_cons, List.flatMap_append]
    rfl
  have hend : contents? 0 [quote] = some ([], []) := by decide
  rw [hbytes, literal?, if_pos rfl, contents?_flatMap, hend]
  simp [Text.bytes]

end Reading.Source

namespace Reading

/-- A C literal is printable, and its quotes and question marks are escaped; it is read back as the
bytes of the text. If the text is the PHP literal of a string, PHP reads the string from these bytes
and finds nothing to interpolate: the literal is the string with its special characters replaced
one after the other, so all dollar signs are escaped. -/
theorem literals_read_back (s : String) :
    Text.CLiteral.WellFormed (Text.CLiteral.quote s).toList ∧
    cDialect.literal? (Text.CLiteral.quote s).toList = some (Text.bytes s, []) ∧
    (∃ inner, (DefaultValue.string s).literal.toList = '"' :: inner ++ ['"'] ∧
      inner = Text.PhpLiteral.replaceInTurn s.toList ∧ Text.Escaped '$' inner) ∧
    ∃ source value,
      cDialect.literal? (Text.CLiteral.quote (DefaultValue.string s).literal).toList =
        some (source, []) ∧
      Source.literal? source = some (value, []) ∧ Text.ofBytes? value = some s := by
  have hread : ∀ t, cDialect.literal? (Text.CLiteral.quote t).toList = some (Text.bytes t, []) := by
    intro t
    have hquote := cDialect_literal?_quote t []
    rwa [List.append_nil] at hquote
  refine ⟨Text.CLiteral.wellFormed_quote s, hread s, ?_, ?_⟩
  · refine ⟨_, String.toList_ofList, (Text.PhpLiteral.replaceInTurn_eq _).symm, ?_⟩
    exact Text.escaped_flatMap Text.PhpLiteral.takesNext_escape
      Text.PhpLiteral.escaped_dollar_escape _
  · exact ⟨_, _, hread _, Source.literal?_quote s, Text.ofBytes?_bytes s⟩

end Reading

end ExtensionHeader
