import ExtensionHeader.Proofs.Reading.Argument
import ExtensionHeader.Proofs.Reading.Literal
import ExtensionHeader.Proofs.Reading.Sections
import ExtensionHeader.Proofs.Sameness

/-! Reading a whole block of argument information. Its text gives back all that the digest of the
signature is made of, so signatures with one block have one digest. -/
namespace ExtensionHeader

open Header Text

namespace Reading

def TypeReading.display (t : TypeReading) : String :=
  let scalars :=
    if t.mask.contains .any then ["mixed"]
    else (t.mask \ .null).scalars.map (·.name) ++ if t.mask.contains .null then ["null"] else []
  "|".intercalate (t.classes.map (·.display) ++ scalars)

structure ParameterReading where
  name : String
  byReference : Bool
  isVariadic : Bool
  type? : Option TypeReading
  /-- The bytes of the default's source text. -/
  default? : Option (List UInt8)
deriving DecidableEq, Repr

structure BlockReading where
  returnsReference : Bool
  returns? : Option TypeReading
  parameters : List ParameterReading
deriving DecidableEq, Repr

def default? (line : String) : Option (List UInt8) :=
  (cDialect.literal? (line.toList.dropWhile (· ≠ '"'))).map Prod.fst

def parameter (line : String) : ParameterReading :=
  let inner := (line.toList.dropWhile (· ≠ '(')).tail
  let leading := ((arguments inner).take 2).map String.ofList
  { name := leading.getD 1 ""
    byReference := leading.head? = some "1"
    isVariadic := "ZEND_ARG_VARIADIC_".toList.isPrefixOf line.toList
    type? := type? leading line
    default? := default? line }

def untypedMacro : String := "ZEND_BEGIN_ARG_INFO_EX"

/-- Reads a block of which the name is known, whatever the name holds. Behind it stand two numbers,
and a third one before them if there is no return type; then come the lines of the parameters. -/
def block? (name text : String) : Option BlockReading := do
  let macroName := text.toList.takeWhile (· ≠ '(')
  let front := String.ofList macroName ++ ("(" ++ name ++ ", ")
  let rest ← text.toList.dropPrefix? front.toList
  match lines (String.ofList rest) with
  | [] => none
  | first :: others =>
    let all := (arguments first.toList).map String.ofList
    let numbers := if String.ofList macroName = untypedMacro then all.drop 1 else all
    return { returnsReference := numbers.head? = some "1"
             returns? := type? (name :: numbers.take 2) (front ++ first)
             parameters := others.dropLast.dropLast.map fun line => parameter (flush line) }

end Reading

open Reading

namespace UnionType

variable {u : UnionType}

theorem Regular.contains_any (h : u.Regular) : u.mask.contains .any = u.scalars.contains .any := by
  rw [Bool.eq_iff_iff]
  constructor
  · intro hany
    have hresource : u.scalars.has TypeCode.resource.value = true := by
      have hmask := TypeMask.contains_iff.mp hany TypeCode.resource.value (by decide)
      rw [h.mask_eq, TypeMask.has_union, scalarMask, TypeMask.has_difference] at hmask
      have hnull : (if u.isNullable then TypeMask.null else .empty).has
          TypeCode.resource.value = false := by
        split <;> decide
      rw [hnull, Bool.or_false, Bool.and_eq_true] at hmask
      exact hmask.1
    have hnamed : ∀ code ∈ TypeMask.named, TypeCode.resource.value ≠ code.value := by decide
    rcases h.named _ hresource with ⟨code, hcode, heq⟩ | ⟨-, hany⟩
    · exact absurd heq (hnamed code hcode)
    · exact hany
  · intro hany
    rw [TypeMask.contains_iff] at hany ⊢
    intro i hi
    unfold mask
    split
    · rw [TypeMask.has_union, hany i hi, Bool.true_or]
    · exact hany i hi

theorem Regular.has_null (h : u.Regular) : u.mask.contains .null = u.isNullable := by
  show u.mask.contains (.ofCode .null) = u.isNullable
  rw [TypeMask.contains_ofCode]
  unfold mask
  cases hnullable : u.isNullable with
  | true =>
    rw [if_pos rfl, TypeMask.has_union]
    exact Bool.or_true _
  | false =>
    rw [if_neg Bool.false_ne_true, ← Bool.not_eq_true]
    intro hnull
    rw [h.null hnull] at hnullable
    contradiction

theorem mask_difference_null (u : UnionType) : u.mask \ .null = u.scalarMask := by
  apply TypeMask.ext_has
  intro i
  unfold mask scalarMask
  split
  · rw [TypeMask.has_difference, TypeMask.has_union, TypeMask.has_difference]
    cases TypeMask.null.has i <;> simp
  · rfl

theorem Regular.display_eq (h : u.Regular) :
    TypeReading.display ⟨u.classes, u.mask⟩ = u.display := by
  unfold TypeReading.display UnionType.display
  dsimp only
  rw [h.contains_any, h.has_null, mask_difference_null]

end UnionType

theorem Header.ArgType.display_meaning {t : DeclaredType} (h : t.IsBuilt) :
    (of (some t)).meaning.display = t.display := by
  cases t with
  | scalar kind => cases kind <;> decide
  | cls name =>
    show TypeReading.display ⟨[name], .empty⟩ = name.display
    have hscalars : (if TypeMask.empty.contains .any then ["mixed"]
        else (TypeMask.empty \ .null).scalars.map (·.name) ++
          if TypeMask.empty.contains .null then ["null"] else []) = [] := by decide
    unfold TypeReading.display
    dsimp only
    rw [hscalars, List.append_nil, List.map_singleton, String.intercalate_singleton]
  | union u =>
    have hregular : u.Regular := h.regular
    show (ofUnion u).meaning.display = u.display
    rcases meaning_ofUnion hregular with heq | ⟨hclasses, hany, heq⟩
    · rw [heq, hregular.display_eq]
    · have hmixed : TypeReading.display ⟨[], .any⟩ = "mixed" := by decide
      have hscalars : u.scalars.contains .any = true := hregular.contains_any ▸ hany
      unfold UnionType.display
      rw [heq, hmixed, hclasses, if_pos hscalars]
      rfl

namespace Reading

def typeReading (type? : Option DeclaredType) : Option TypeReading :=
  type?.map fun t => (ArgType.of (some t)).meaning

theorem map_display_typeReading {type? : Option DeclaredType}
    (h : ∀ t, type? = some t → t.IsBuilt) :
    (typeReading type?).map (·.display) = type?.map (·.display) := by
  cases type? with
  | none => rfl
  | some t => exact congrArg some (ArgType.display_meaning (h t rfl))

def parameterReading (p : Parameter) : ParameterReading where
  name := p.name
  byReference := p.byReference
  isVariadic := p.isVariadic
  type? := typeReading p.type?
  default? := p.default?.map fun value => bytes value.literal

def blockReading (s : Signature) : BlockReading where
  returnsReference := s.returnsReference
  returns? := typeReading s.returns?
  parameters := s.parameters.map parameterReading

/-! One line. -/

theorem family_mem (t : ArgType) :
    t.family ∈ ["INFO", "TYPE_INFO", "OBJ_INFO", "TYPE_MASK", "OBJ_TYPE_MASK"] := by
  cases t <;> simp [ArgType.family]

theorem isWord_family (t : ArgType) : IsWord t.family := by
  have hall : ∀ s ∈ ["INFO", "TYPE_INFO", "OBJ_INFO", "TYPE_MASK", "OBJ_TYPE_MASK"], IsWord s := by
    decide
  exact hall _ (family_mem t)

theorem isWord_argumentMacro (p : Parameter) : IsWord (argumentMacro p) := by
  unfold argumentMacro
  rw [isWord_append, isWord_append]
  refine ⟨⟨?_, isWord_family _⟩, ?_⟩
  · split <;> decide
  · split <;> decide

theorem toList_call (name : String) (args : List String) :
    (call name args).toList = name.toList ++ '(' :: (", ".intercalate args ++ ")").toList := by
  unfold call
  simp only [String.toList_append, List.append_assoc]
  rfl

theorem isPrefixOf_argument (p : Parameter) :
    "ZEND_ARG_VARIADIC_".toList.isPrefixOf (argument p).toList = p.isVariadic := by
  have hfamily : ∀ s ∈ ["INFO", "TYPE_INFO", "OBJ_INFO", "TYPE_MASK", "OBJ_TYPE_MASK"],
      s.toList ≠ [] ∧ s.toList.head? ≠ some 'V' := by decide
  have hvariadic : "ZEND_ARG_VARIADIC_".toList = "ZEND_ARG_".toList ++ 'V' :: "ARIADIC_".toList :=
    rfl
  rw [Bool.eq_iff_iff, List.isPrefixOf_iff_prefix, argument_eq, toList_call]
  unfold argumentMacro
  simp only [String.toList_append, List.append_assoc]
  cases p.isVariadic with
  | true =>
    rw [if_pos rfl]
    exact iff_of_true (List.prefix_append _ _) rfl
  | false =>
    obtain ⟨hnil, hhead⟩ := hfamily _ (family_mem (ArgType.of p.type?))
    rw [if_neg Bool.false_ne_true, hvariadic, List.prefix_append_right_inj]
    cases hc : (ArgType.of p.type?).family.toList with
    | nil => exact absurd hc hnil
    | cons c rest =>
      rw [hc] at hhead
      rw [List.cons_append, List.cons_prefix_cons]
      exact iff_of_false (fun h => hhead (congrArg some h.1.symm)) Bool.false_ne_true

theorem decide_bit (b : Bool) : decide (some (bit b) = some "1") = b := by
  cases b <;> decide

section line

variable {p : Parameter} (hname : Identifier.isValid p.name = true)
  (htype : ∀ t, p.type? = some t → (ArgType.of (some t)).Legible)

include hname

theorem isTypeText_name : ArgType.IsTypeText p.name.toList :=
  fun _ hc => .inl (Identifier.isContinuation_of_mem hname hc)

theorem leading_argument :
    ((arguments ((argument p).toList.dropWhile (· ≠ '(')).tail).take 2).map String.ofList =
      [bit p.byReference, p.name] := by
  have hmacro : ∀ c ∈ (argumentMacro p).toList, decide (c ≠ '(') = true :=
    forall_ne_of_not_mem fun hc => absurd (isWord_argumentMacro p _ hc) (by decide)
  have hplain : ∀ a ∈ [bit p.byReference, p.name], IsPlain a.toList :=
    List.forall_mem_cons.mpr ⟨(ArgType.isTypeText_bit _).isPlain,
      List.forall_mem_singleton.mpr (isTypeText_name hname).isPlain⟩
  obtain ⟨more, hmore⟩ := arguments_call (List.cons_ne_nil _ _) hplain
    ((ArgType.of p.type?).arguments ++ defaults p)
  rw [argument_eq, toList_call, dropWhile_stop hmacro (by decide), List.tail_cons, frontArguments,
    List.append_assoc, hmore]
  simp

include htype

theorem quote_not_mem_front :
    ∀ c ∈ (argumentMacro p ++ "(" ++ ", ".intercalate (frontArguments p)).toList, c ≠ '"' := by
  have htext : ∀ {text : List Char}, ArgType.IsTypeText text → ∀ c ∈ text, c ≠ '"' := by
    rintro text h c hc rfl
    exact absurd (h _ hc) (by decide)
  have harguments : ∀ a ∈ (ArgType.of p.type?).arguments, ∀ c ∈ a.toList, c ≠ '"' := by
    cases ht : p.type? with
    | none => exact fun a ha => absurd ha List.not_mem_nil
    | some t => exact fun a ha => htext (ArgType.isTypeText_of_mem_arguments (htype t ht) a ha)
  have hfront : ∀ a ∈ frontArguments p, ∀ c ∈ a.toList, c ≠ '"' := by
    unfold frontArguments
    rw [List.forall_mem_append, List.forall_mem_cons, List.forall_mem_singleton]
    exact ⟨⟨htext (ArgType.isTypeText_bit _), htext (isTypeText_name hname)⟩, harguments⟩
  simp only [String.toList_append, List.forall_mem_append]
  refine ⟨⟨?_, List.all_iff_forall_prop.mp (by decide)⟩,
    forall_mem_intercalate (List.all_iff_forall_prop.mp (by decide)) hfront⟩
  rintro c hc rfl
  exact absurd (isWord_argumentMacro p _ hc) (by decide)

theorem default?_argument :
    default? (argument p) = p.default?.map fun value => bytes value.literal := by
  have hfront := quote_not_mem_front hname htype
  cases hdefault : p.default? with
  | none =>
    have hbare : ∀ c ∈ (argument p).toList, c ≠ '"' := by
      rw [argument_eq]
      unfold defaults
      rw [hdefault]
      split
      · show ∀ c ∈ (call (argumentMacro p) (frontArguments p ++ ["NULL"])).toList, c ≠ '"'
        rw [call_concat _ (frontArguments_ne_nil p)]
        simp only [String.toList_append, List.forall_mem_append] at hfront ⊢
        exact ⟨⟨hfront, List.all_iff_forall_prop.mp (by decide)⟩,
          List.all_iff_forall_prop.mp (by decide), List.all_iff_forall_prop.mp (by decide)⟩
      · show ∀ c ∈ (call (argumentMacro p) (frontArguments p ++ [])).toList, c ≠ '"'
        rw [List.append_nil]
        unfold call
        simp only [String.toList_append, List.forall_mem_append] at hfront ⊢
        exact ⟨hfront, List.all_iff_forall_prop.mp (by decide)⟩
    unfold default?
    rw [List.dropWhile_eq_nil_iff.mpr (by simpa using hbare)]
    rfl
  | some value =>
    have hskip : ∀ c ∈ (argumentMacro p ++ "(" ++ ", ".intercalate (frontArguments p) ++
        ", ").toList, decide (c ≠ '"') = true := by
      rw [String.toList_append, List.forall_mem_append]
      exact ⟨fun c hc => decide_eq_true (hfront c hc), List.all_eq_true.mp (by decide)⟩
    have hquote : (CLiteral.quote value.literal ++ ")").toList.dropWhile (· ≠ '"') =
        (CLiteral.quote value.literal).toList ++ [')'] := by
      unfold CLiteral.quote
      rw [String.toList_append, String.toList_ofList, List.cons_append, List.cons_append,
        List.dropWhile_cons_of_neg (by simp)]
      rfl
    unfold default?
    rw [argument_eq_of_eq_some hdefault, String.toList_append,
      List.dropWhile_append_of_pos hskip, hquote, cDialect_literal?_quote]
    rfl

omit hname in
theorem type?_argument_eq :
    type? [bit p.byReference, p.name] (argument p) = typeReading p.type? := by
  cases ht : p.type? with
  | some t =>
    have hlegible : (ArgType.of p.type?).Legible := ht ▸ htype t ht
    rw [type?_argument hlegible, ht]
    rfl
  | none =>
    have hmacro : '(' ∉ (argumentMacro p).toList :=
      fun hmem => absurd (isWord_argumentMacro p _ hmem) (by decide)
    have hlookup : macros.lookup (argumentMacro p) = none := by
      unfold argumentMacro
      rw [ht]
      cases p.isVariadic <;> cases p.default?.isSome <;> decide
    unfold type?
    dsimp only
    rw [argument_eq, toList_call, takeWhile_call hmacro, String.ofList_toList, hlookup]
    rfl

theorem parameter_argument : parameter (argument p) = parameterReading p := by
  unfold parameter
  dsimp only
  rw [leading_argument hname, type?_argument_eq htype, default?_argument hname htype,
    isPrefixOf_argument]
  unfold parameterReading
  rw [ParameterReading.mk.injEq]
  exact ⟨rfl, decide_bit p.byReference, rfl, rfl, rfl⟩

end line

/-! The opening of a block. -/

def openingArguments (s : Signature) : List String :=
  (if s.returns?.isNone then ["0"] else []) ++ [bit s.returnsReference, toString s.required] ++
    (ArgType.of s.returns?).arguments

section opening

variable {s : Signature} (hresult : ∀ t, s.returns? = some t → (ArgType.of (some t)).Legible)

include hresult

theorem opening_eq_call : ∃ macroName, IsWord macroName ∧
    (macroName = untypedMacro ↔ s.returns? = none) ∧
    ∀ name, opening name s = call macroName (name :: openingArguments s) := by
  unfold openingArguments
  cases hreturns : s.returns? with
  | none =>
    refine ⟨untypedMacro, by decide, by simp, fun name => ?_⟩
    unfold opening
    rw [hreturns]
    rfl
  | some t =>
    have hlegible := hresult t hreturns
    have hdiffer : ∀ family ∈ ["INFO", "TYPE_INFO", "OBJ_INFO", "TYPE_MASK", "OBJ_TYPE_MASK"],
        "ZEND_BEGIN_ARG_WITH_RETURN_" ++ family ++ "_EX" ≠ untypedMacro := by decide
    refine ⟨"ZEND_BEGIN_ARG_WITH_RETURN_" ++ (ArgType.of (some t)).family ++ "_EX", ?_,
      by simp [hdiffer _ (family_mem _)], fun name => ?_⟩
    · rw [isWord_append, isWord_append]
      exact ⟨⟨by decide, isWord_family _⟩, by decide⟩
    · unfold opening
      rw [hreturns]
      cases ht : ArgType.of (some t) with
      | untyped =>
        rw [ht] at hlegible
        contradiction
      | _ => rfl

theorem isTypeText_openingArguments :
    ∀ a ∈ openingArguments s, ArgType.IsTypeText a.toList := by
  have hnumber : ArgType.IsTypeText (toString s.required).toList := by
    intro c hc
    left
    unfold Identifier.isContinuation Char.isAlphanum
    rw [isDigit_of_mem_toString hc, Bool.or_true, Bool.true_or]
  unfold openingArguments
  simp only [List.forall_mem_append, List.forall_mem_cons]
  refine ⟨⟨?_, ArgType.isTypeText_bit _, hnumber, fun _ h => absurd h List.not_mem_nil⟩, ?_⟩
  · split
    · exact List.forall_mem_singleton.mpr (by decide)
    · exact fun _ h => absurd h List.not_mem_nil
  · cases hreturns : s.returns? with
    | none => exact fun _ h => absurd h List.not_mem_nil
    | some t => exact ArgType.isTypeText_of_mem_arguments (hresult t hreturns)

theorem isPlain_openingArguments : ∀ a ∈ openingArguments s, IsPlain a.toList :=
  fun a ha => (isTypeText_openingArguments hresult a ha).isPlain

end opening

theorem take_openingArguments (s : Signature) (more : List String) :
    (if s.returns? = none then (openingArguments s ++ more).drop 1
      else openingArguments s ++ more).take 2 = [bit s.returnsReference, toString s.required] := by
  unfold openingArguments
  cases s.returns? <;> rfl

theorem type?_opening_eq {s : Signature} (name : String)
    (hresult : ∀ t, s.returns? = some t → (ArgType.of (some t)).Legible) :
    type? [name, bit s.returnsReference, toString s.required] (opening name s) =
      typeReading s.returns? := by
  cases hreturns : s.returns? with
  | some t =>
    have hlegible : (ArgType.of s.returns?).Legible := hreturns ▸ hresult t hreturns
    rw [type?_opening hlegible, hreturns]
    rfl
  | none =>
    have hlookup : macros.lookup untypedMacro = none := by decide
    have hopening : opening name s = call untypedMacro
        [name, "0", bit s.returnsReference, toString s.required] := by
      unfold opening
      rw [hreturns]
      rfl
    unfold type?
    dsimp only
    rw [hopening, toList_call, takeWhile_call (by decide), String.ofList_toList, hlookup]
    rfl

def openingTail (s : Signature) : String := ", ".intercalate (openingArguments s) ++ ")"

def lowerLines (s : Signature) : List Line :=
  s.parameters.map (fun p => ⟨1, argument p⟩) ++ [⟨0, "ZEND_END_ARG_INFO()"⟩]

theorem openingArguments_ne_nil (s : Signature) : openingArguments s ≠ [] := by
  unfold openingArguments
  simp

theorem call_openingArguments (macroName name : String) (s : Signature) :
    call macroName (name :: openingArguments s) =
      macroName ++ ("(" ++ name ++ ", ") ++ openingTail s := by
  rw [call_cons _ _ (openingArguments_ne_nil s)]
  unfold openingTail
  simp only [String.append_assoc]

theorem lines_openingTail {s : Signature}
    (hresult : ∀ t, s.returns? = some t → (ArgType.of (some t)).Legible) (t : String) :
    lines (openingTail s ++ "\n" ++ t) = openingTail s :: lines t := by
  have hnewline : ∀ c ∈ (openingTail s).toList, c ≠ '\n' := by
    unfold openingTail
    rw [String.toList_append, List.forall_mem_append]
    refine ⟨forall_mem_intercalate (List.all_iff_forall_prop.mp (by decide)) ?_,
      List.all_iff_forall_prop.mp (by decide)⟩
    rintro a ha c hc rfl
    exact absurd (isTypeText_openingArguments hresult a ha _ hc) (by decide)
  rw [lines_append, lines_of_not_mem fun hmem => hnewline _ hmem rfl]
  rfl

theorem flush_lowerLines {s : Signature} (h : s.Spelt) :
    (lines (Line.renderAll (lowerLines s))).dropLast.dropLast.map flush =
      s.parameters.map argument := by
  have hlines : ∀ l ∈ lowerLines s, IsLine l.text := by
    unfold lowerLines
    rw [List.forall_mem_append, List.forall_mem_map, List.forall_mem_singleton]
    exact ⟨fun p hp => isLine_argument (h.parameter p hp) (h.type p hp), by decide⟩
  have hflush := flush_lines_renderAll fun l hl => (hlines l hl).stands
  rw [List.map_dropLast, List.map_dropLast, hflush, List.dropLast_concat]
  unfold lowerLines
  rw [List.map_append, List.map_singleton, List.dropLast_concat, List.map_map]
  rfl

theorem renderAll_block_eq {s : Signature} {name macroName : String}
    (h : opening name s = call macroName (name :: openingArguments s)) :
    Line.renderAll (block name s) = macroName ++ ("(" ++ name ++ ", ") ++
      (openingTail s ++ "\n" ++ Line.renderAll (lowerLines s)) := by
  have hblock : block name s = ⟨0, opening name s⟩ :: lowerLines s := rfl
  have hrender : Line.render ⟨0, opening name s⟩ = opening name s ++ "\n" := by
    show "" ++ opening name s ++ "\n" = _
    rw [String.empty_append]
  rw [hblock, Line.renderAll_cons, hrender, h, call_openingArguments]
  simp only [String.append_assoc]

end Reading

/-- Unions in the types of the signature are built up in steps. -/
structure Signature.IsBuilt (s : Signature) : Prop where
  type : ∀ p ∈ s.parameters, ∀ t, p.type? = some t → t.IsBuilt
  result : ∀ t, s.returns? = some t → t.IsBuilt

namespace Reading

section block

variable {s : Signature} (hspelt : s.Spelt) (hbuilt : s.IsBuilt)

include hspelt hbuilt

theorem legible_type {p : Parameter} (hp : p ∈ s.parameters) :
    ∀ t, p.type? = some t → (ArgType.of (some t)).Legible := by
  intro t ht
  have hclasses := hspelt.type p hp
  rw [ht] at hclasses
  exact ArgType.legible_of (hbuilt.type p hp t ht) hclasses

theorem legible_result : ∀ t, s.returns? = some t → (ArgType.of (some t)).Legible := by
  intro t ht
  have hclasses := hspelt.result
  rw [ht] at hclasses
  exact ArgType.legible_of (hbuilt.result t ht) hclasses

/-- The text of a block gives back what it is written for. -/
theorem block?_renderAll (name : String) :
    block? name (Line.renderAll (block name s)) = some (blockReading s) := by
  have hresult := legible_result hspelt hbuilt
  obtain ⟨macroName, hword, huntyped, hopening⟩ := opening_eq_call hresult
  have hmacro : '(' ∉ macroName.toList := fun hmem => absurd (hword _ hmem) (by decide)
  have htext := renderAll_block_eq (hopening name)
  have htake : (Line.renderAll (block name s)).toList.takeWhile (· ≠ '(') = macroName.toList := by
    rw [htext]
    simpa using takeWhile_call hmacro ((name ++ ", ") ++
      (openingTail s ++ "\n" ++ Line.renderAll (lowerLines s))).toList
  have hdrop : (Line.renderAll (block name s)).toList.dropPrefix?
      (macroName ++ ("(" ++ name ++ ", ")).toList =
        some (openingTail s ++ "\n" ++ Line.renderAll (lowerLines s)).toList := by
    rw [htext, String.toList_append]
    exact List.dropPrefix?_append_of_beq _ (beq_self_eq_true _)
  obtain ⟨more, hmore⟩ := arguments_call (openingArguments_ne_nil s)
    (isPlain_openingArguments hresult) []
  rw [List.append_nil] at hmore
  have hall : (arguments (openingTail s).toList).map String.ofList =
      openingArguments s ++ more.map String.ofList := by
    rw [openingTail, hmore, List.map_append, List.map_map]
    simp [Function.comp_def]
  have hnumbers := take_openingArguments s (more.map String.ofList)
  have hhead := congrArg List.head? hnumbers
  rw [List.head?_take, if_neg (by decide), List.head?_cons] at hhead
  have hparameters : ((lines (Line.renderAll (lowerLines s))).dropLast.dropLast.map
      fun line => parameter (flush line)) = s.parameters.map parameterReading := by
    have hcomp : (fun line => parameter (flush line)) = parameter ∘ flush := rfl
    rw [hcomp, ← List.map_map, flush_lowerLines hspelt, List.map_map]
    exact List.map_congr_left fun p hp =>
      parameter_argument (hspelt.parameter p hp) (legible_type hspelt hbuilt hp)
  unfold block?
  simp only [htake, String.ofList_toList, hdrop, Option.bind_eq_bind, Option.bind_some,
    lines_openingTail hresult, hall, huntyped, hparameters]
  rw [hnumbers, ← call_openingArguments, ← hopening, type?_opening_eq name hresult]
  simp only [hhead, decide_bit]
  rfl

end block

end Reading

/-- What a block tells of a parameter is the same of both. -/
structure Parameter.ShownAlike (p q : Parameter) : Prop where
  name : p.name = q.name
  byReference : p.byReference = q.byReference
  isVariadic : p.isVariadic = q.isVariadic
  type : p.type?.map (·.display) = q.type?.map (·.display)
  default : p.default?.map (·.literal) = q.default?.map (·.literal)

theorem Parameter.ShownAlike.parameterKey_eq {p q : Parameter} (h : p.ShownAlike q) :
    Signature.Digest.parameterKey p = Signature.Digest.parameterKey q := by
  unfold Signature.Digest.parameterKey Signature.Digest.typeKey
  rw [h.name, h.byReference, h.isVariadic, h.type, h.default]

theorem Parameter.shownAlike_of_reading_eq {p q : Parameter}
    (hp : ∀ t, p.type? = some t → t.IsBuilt) (hq : ∀ t, q.type? = some t → t.IsBuilt)
    (h : parameterReading p = parameterReading q) : p.ShownAlike q := by
  simp only [parameterReading, ParameterReading.mk.injEq] at h
  obtain ⟨hname, hreference, hvariadic, htype, hdefault⟩ := h
  refine ⟨hname, hreference, hvariadic, ?_, ?_⟩
  · rw [← map_display_typeReading hp, htype, map_display_typeReading hq]
  · have hliteral : Function.Injective (Option.map bytes) :=
      Option.map_injective fun _ _ => bytes_injective
    apply hliteral
    simpa only [Option.map_map, Function.comp_def] using hdefault

namespace Signature

variable {s t : Signature}

/-- The text of a block determines what the digest covers, whatever the name of the block is. -/
theorem renderAll_block_determines (hs : s.Spelt) (hsBuilt : s.IsBuilt) (ht : t.Spelt)
    (htBuilt : t.IsBuilt) {name : String}
    (h : Line.renderAll (block name s) = Line.renderAll (block name t)) :
    s.digest = t.digest ∧ s.returnsReference = t.returnsReference ∧
      s.returns?.map (·.display) = t.returns?.map (·.display) ∧
      List.Forall₂ Parameter.ShownAlike s.parameters t.parameters := by
  have hreading : blockReading s = blockReading t := by
    rw [← Option.some.injEq, ← block?_renderAll hs hsBuilt name, h,
      block?_renderAll ht htBuilt name]
  simp only [blockReading, BlockReading.mk.injEq] at hreading
  obtain ⟨hreference, hresult, hparameters⟩ := hreading
  have hreturns : s.returns?.map (·.display) = t.returns?.map (·.display) := by
    rw [← map_display_typeReading hsBuilt.result, hresult, map_display_typeReading htBuilt.result]
  have halike : List.Forall₂ Parameter.ShownAlike s.parameters t.parameters := by
    rw [← List.forall₂_eq_eq_eq, List.forall₂_map_left_iff, List.forall₂_map_right_iff,
      List.forall₂_iff_zip] at hparameters
    refine List.forall₂_iff_zip.mpr ⟨hparameters.1, fun {p q} hpq => ?_⟩
    obtain ⟨hp, hq⟩ := List.of_mem_zip hpq
    exact Parameter.shownAlike_of_reading_eq (hsBuilt.type p hp) (htBuilt.type q hq)
      (hparameters.2 hpq)
  have hstart : Digest.start s = Digest.start t := by
    unfold Digest.start Digest.typeKey
    rw [hreference, hreturns]
  have hkeys : s.parameters.map Digest.parameterKey = t.parameters.map Digest.parameterKey := by
    rw [← List.forall₂_eq_eq_eq, List.forall₂_map_left_iff, List.forall₂_map_right_iff]
    exact halike.imp fun _ _ hpq => hpq.parameterKey_eq
  exact ⟨digest_congr hstart hkeys, hreference, hreturns, halike⟩

def lookup (limit value : DeclaredType) (nan : UInt64) : Signature where
  parameters := [
    { name := "key", type? := some (.union (.ofSteps [.scalar .string, .nullable])) },
    { name := "limit", type? := some limit, default? := some (.float ⟨nan⟩) },
    { name := "rest", type? := some (.cls ⟨["Store"], "Row"⟩), isVariadic := true }]
  returns? := some value
  returnsReference := true

theorem isBuilt_lookup {limit value : DeclaredType} (nan : UInt64) (hlimit : limit.IsBuilt)
    (hvalue : value.IsBuilt) : (lookup limit value nan).IsBuilt where
  type := by
    unfold lookup
    simp only [List.forall_mem_cons, Option.some.injEq, forall_eq']
    exact ⟨DeclaredType.isBuilt_ofSteps _, hlimit, DeclaredType.isBuilt_cls _,
      fun _ h => absurd h List.not_mem_nil⟩
  result := by
    unfold lookup
    simpa only [Option.some.injEq, forall_eq'] using hvalue

def scalarLookup : Signature := lookup (.scalar .int) (.scalar .mixed) 0x7ff8000000000000

def unionLookup : Signature :=
  lookup (.union (.ofSteps [.scalar .int]))
    (.union (.ofSteps [.scalar .mixed, .scalar .callable])) 0xfff0000000000001

theorem renderAll_block_determines_lookup :
    scalarLookup ≠ unionLookup ∧
      Line.renderAll (block "arginfo_lookup" scalarLookup) =
        Line.renderAll (block "arginfo_lookup" unionLookup) ∧
      scalarLookup.digest = unionLookup.digest := by
  have hs : scalarLookup.Spelt := ⟨by decide, by decide, by decide⟩
  have ht : unionLookup.Spelt := ⟨by decide, by decide, by decide⟩
  have hsBuilt : scalarLookup.IsBuilt :=
    isBuilt_lookup _ (DeclaredType.isBuilt_scalar _) (DeclaredType.isBuilt_scalar _)
  have htBuilt : unionLookup.IsBuilt :=
    isBuilt_lookup _ (DeclaredType.isBuilt_ofSteps _) (DeclaredType.isBuilt_ofSteps _)
  have htext : Line.renderAll (block "arginfo_lookup" scalarLookup) =
      Line.renderAll (block "arginfo_lookup" unionLookup) := by decide +kernel
  have hdetermined := renderAll_block_determines hs hsBuilt ht htBuilt htext
  exact ⟨by decide, htext, hdetermined.1⟩

end Signature

end ExtensionHeader
