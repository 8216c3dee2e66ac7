import ExtensionHeader.Header.ArgInfo
import Mathlib.Data.List.Forall2

/-! What signatures that are the same have in common. Their float defaults are compared as numbers,
and a zero equals the negative zero; yet it is the text of a default that is written and digested,
and the text of a zero shows its sign. Up to these signs, the digest and the block of argument
information are functions of the signature as it is compared. -/
namespace ExtensionHeader

open Header Text

namespace Binary64

def negativeZero : Binary64 := ⟨0x8000000000000000⟩

theorem eq_zero_of_isZero {x : Binary64} (h : x.isZero = true) (hx : x ≠ negativeZero) :
    x = ⟨0⟩ := by
  have hlt := x.bits.toNat_lt
  have hne : x.bits.toNat ≠ 0x8000000000000000 := by
    intro heq
    apply hx
    rw [Binary64.mk.injEq, ← UInt64.toNat_inj]
    exact heq
  simp only [isZero, Bool.and_eq_true, decide_eq_true_eq] at h
  unfold exponentField fraction leadingOne at h
  have hzero : x.bits.toNat = 0 := by omega
  rw [Binary64.mk.injEq, ← UInt64.toNat_inj]
  exact hzero

theorem isZero_cases {x : Binary64} (h : x.isZero = true) : x = ⟨0⟩ ∨ x = negativeZero := by
  by_cases hx : x = negativeZero
  · exact .inr hx
  · exact .inl (eq_zero_of_isZero h hx)

theorem text_zero : (⟨0⟩ : Binary64).text = "0.0" := by decide +kernel

theorem text_negativeZero : negativeZero.text = "-0.0" := by decide +kernel

theorem not_isNaN_of_isZero {x : Binary64} (h : x.isZero = true) : x.isNaN = false := by
  rcases isZero_cases h with rfl | rfl <;> decide

theorem isNaN_canonical (x : Binary64) : x.canonical.isNaN = x.isNaN := by
  unfold canonical
  split
  · rename_i hnan
    rw [hnan]
    decide
  · split
    · rename_i hzero
      rw [not_isNaN_of_isZero hzero]
      decide
    · rfl

theorem isZero_canonical (x : Binary64) : x.canonical.isZero = x.isZero := by
  unfold canonical
  split
  · rename_i hnan
    have hzero : x.isZero = false := by
      rw [← Bool.not_eq_true]
      intro hzero
      rw [not_isNaN_of_isZero hzero] at hnan
      contradiction
    rw [hzero]
    decide
  · split
    · rename_i hzero
      rw [hzero]
      decide
    · rfl

theorem canonical_of_ordinary {x : Binary64} (hnan : x.isNaN = false) (hzero : x.isZero = false) :
    x.canonical = x := by
  unfold canonical
  rw [hnan, hzero]
  rfl

def zeroSign? (x : Binary64) : Option Bool := if x.isZero then some x.isNegative else none

theorem eq_of_isZero {x y : Binary64} (hx : x.isZero = true) (hy : y.isZero = true)
    (hsign : x.zeroSign? = y.zeroSign?) : x = y := by
  rcases isZero_cases hx with rfl | rfl <;> rcases isZero_cases hy with rfl | rfl
  · rfl
  · exact absurd hsign (by decide)
  · exact absurd hsign (by decide)
  · rfl

theorem text_of_isNaN {x : Binary64} (h : x.isNaN = true) : x.text = "NAN" := by
  unfold text
  exact if_pos h

theorem text_eq_of_canonical_eq {x y : Binary64} (h : x.canonical = y.canonical)
    (hsign : x.zeroSign? = y.zeroSign?) : x.text = y.text := by
  have hnan : x.isNaN = y.isNaN := by rw [← isNaN_canonical x, h, isNaN_canonical]
  have hzero : x.isZero = y.isZero := by rw [← isZero_canonical x, h, isZero_canonical]
  cases hx : x.isNaN with
  | true => rw [text_of_isNaN hx, text_of_isNaN (hnan ▸ hx)]
  | false =>
    cases hz : x.isZero with
    | true => rw [eq_of_isZero hz (hzero ▸ hz) hsign]
    | false =>
      rw [canonical_of_ordinary hx hz, canonical_of_ordinary (hnan ▸ hx) (hzero ▸ hz)] at h
      rw [h]

end Binary64

namespace DefaultValue

def zeroSign? : DefaultValue → Option Bool
  | float x => x.zeroSign?
  | _ => none

variable {v w : DefaultValue}

/-- Only floats compare equal without being equal. -/
theorem eq_or_of_canonical_eq (h : v.canonical = w.canonical) :
    v = w ∨ ∃ x y, v = float x ∧ w = float y ∧ x.canonical = y.canonical := by
  cases v with
  | float x =>
    cases w with
    | float y => exact .inr ⟨x, y, rfl, rfl, float.inj h⟩
    | _ => cases h
  | _ =>
    left
    cases w with
    | float y => cases h
    | _ => exact h

theorem literal_eq_of_canonical_eq (h : v.canonical = w.canonical)
    (hsign : v.zeroSign? = w.zeroSign?) : v.literal = w.literal := by
  rcases eq_or_of_canonical_eq h with rfl | ⟨x, y, rfl, rfl, hxy⟩
  · rfl
  · exact Binary64.text_eq_of_canonical_eq hxy hsign

theorem zeroSign?_eq_of_quote_append (h : v.canonical = w.canonical) {a b : String}
    (heq : CLiteral.quote v.literal ++ a = CLiteral.quote w.literal ++ b) :
    v.zeroSign? = w.zeroSign? := by
  have hquotes : (CLiteral.quote "0.0").toList = '"' :: '0' :: ".0\"".toList ∧
      (CLiteral.quote "-0.0").toList = '"' :: '-' :: "0.0\"".toList := by decide
  rcases eq_or_of_canonical_eq h with rfl | ⟨x, y, rfl, rfl, hxy⟩
  · rfl
  · have hzero : x.isZero = y.isZero := by
      rw [← Binary64.isZero_canonical x, hxy, Binary64.isZero_canonical]
    show x.zeroSign? = y.zeroSign?
    cases hx : x.isZero with
    | false =>
      unfold Binary64.zeroSign?
      rw [← hzero, hx]
      rfl
    | true =>
      have htext := congrArg String.toList heq
      simp only [String.toList_append, literal] at htext
      rcases Binary64.isZero_cases hx with rfl | rfl <;>
        rcases Binary64.isZero_cases (hzero ▸ hx) with rfl | rfl
      · rfl
      · rw [Binary64.text_zero, Binary64.text_negativeZero, hquotes.1, hquotes.2] at htext
        simp at htext
      · rw [Binary64.text_zero, Binary64.text_negativeZero, hquotes.1, hquotes.2] at htext
        simp at htext
      · rfl

end DefaultValue

namespace Parameter

variable {p q : Parameter}

def zeroSign? (p : Parameter) : Option Bool := p.default?.bind (·.zeroSign?)

theorem eq_of_canonical_eq (h : p.canonical = q.canonical) :
    q = { p with default? := q.default? } := by
  cases p
  cases q
  simp only [canonical, Parameter.mk.injEq] at h ⊢
  exact ⟨h.1.symm, h.2.1.symm, trivial, h.2.2.2.1.symm, h.2.2.2.2.symm⟩

theorem default?_canonical (h : p.canonical = q.canonical) :
    p.default?.map (·.canonical) = q.default?.map (·.canonical) :=
  congrArg Parameter.default? h

theorem isOptional_canonical (p : Parameter) : p.canonical.isOptional = p.isOptional := by
  unfold isOptional canonical
  simp only [Option.isSome_map]

theorem literal_eq_of_canonical_eq (h : p.canonical = q.canonical)
    (hsign : p.zeroSign? = q.zeroSign?) :
    p.default?.map (·.literal) = q.default?.map (·.literal) := by
  have hdefault := default?_canonical h
  unfold zeroSign? at hsign
  cases hp : p.default? with
  | none =>
    rw [hp] at hdefault
    rw [Option.map_eq_none_iff.mp hdefault.symm]
  | some v =>
    rw [hp] at hdefault hsign
    obtain ⟨w, hw, hcanonical⟩ := Option.map_eq_some_iff.mp hdefault.symm
    rw [hw] at hsign ⊢
    exact congrArg some (DefaultValue.literal_eq_of_canonical_eq hcanonical.symm hsign)

theorem map_congr {α : Type} {f : Parameter → α}
    (hf : ∀ {p q}, p.canonical = q.canonical → p.zeroSign? = q.zeroSign? → f p = f q)
    {ps qs : List Parameter} (h : ps.map (·.canonical) = qs.map (·.canonical))
    (hsigns : ps.map (·.zeroSign?) = qs.map (·.zeroSign?)) : ps.map f = qs.map f := by
  induction ps generalizing qs with
  | nil =>
    cases qs with
    | nil => rfl
    | cons q qs => cases h
  | cons p ps ih =>
    cases qs with
    | nil => cases h
    | cons q qs =>
      simp only [List.map_cons, List.cons.injEq] at h hsigns ⊢
      exact ⟨hf h.1 hsigns.1, ih h.2 hsigns.2⟩

end Parameter

section parameter

variable {p q : Parameter} (h : p.canonical = q.canonical)

include h

theorem Signature.Digest.parameterKey_congr (hsign : p.zeroSign? = q.zeroSign?) :
    parameterKey p = parameterKey q := by
  unfold parameterKey
  rw [Parameter.literal_eq_of_canonical_eq h hsign, Parameter.eq_of_canonical_eq h]

theorem Header.argument_congr (hsign : p.zeroSign? = q.zeroSign?) : argument p = argument q := by
  have hquote := congrArg (Option.map CLiteral.quote) (Parameter.literal_eq_of_canonical_eq h hsign)
  simp only [Option.map_map, Function.comp_def] at hquote
  unfold argument
  rw [hquote, Parameter.eq_of_canonical_eq h]

end parameter

theorem Text.Line.renderAll_cons (l : Line) (ls : List Line) :
    Line.renderAll (l :: ls) = l.render ++ Line.renderAll ls := by
  unfold Line.renderAll
  rw [List.map_cons, String.join_cons]

theorem Text.Line.renderAll_append (ls ls' : List Line) :
    Line.renderAll (ls ++ ls') = Line.renderAll ls ++ Line.renderAll ls' := by
  unfold Line.renderAll
  rw [List.map_append, String.join_append]

theorem Header.call_concat (name : String) {args : List String} (h : args ≠ []) (last : String) :
    call name (args ++ [last]) = name ++ "(" ++ ", ".intercalate args ++ ", " ++ (last ++ ")") := by
  unfold call
  rw [String.intercalate_append_of_ne_nil h (List.cons_ne_nil _ _), String.intercalate_singleton]
  simp only [String.append_assoc]

def Header.argumentMacro (p : Parameter) : String :=
  (if p.isVariadic then "ZEND_ARG_VARIADIC_" else "ZEND_ARG_") ++ (ArgType.of p.type?).family ++
    if !(ArgType.of p.type?).takesDefault && p.default?.isSome then "_WITH_DEFAULT_VALUE" else ""

def Header.frontArguments (p : Parameter) : List String :=
  [Text.bit p.byReference, p.name] ++ (ArgType.of p.type?).arguments

theorem Header.frontArguments_ne_nil (p : Parameter) : frontArguments p ≠ [] :=
  List.cons_ne_nil _ _

def Header.defaults (p : Parameter) : List String :=
  let default? := p.default?.map fun value => CLiteral.quote value.literal
  if (ArgType.of p.type?).takesDefault then [default?.getD "NULL"] else default?.toList

theorem Header.argument_eq (p : Parameter) :
    argument p = call (argumentMacro p) (frontArguments p ++ defaults p) := by
  unfold argument argumentMacro frontArguments defaults
  cases htakes : (ArgType.of p.type?).takesDefault <;> cases p.default? <;> simp [htakes]

theorem Header.defaults_of_eq_some {p : Parameter} {v : DefaultValue} (h : p.default? = some v) :
    defaults p = [CLiteral.quote v.literal] := by
  unfold defaults
  rw [h]
  exact ite_self _

theorem Header.argument_eq_of_eq_some {p : Parameter} {v : DefaultValue} (h : p.default? = some v) :
    argument p = argumentMacro p ++ "(" ++ ", ".intercalate (frontArguments p) ++ ", " ++
      (CLiteral.quote v.literal ++ ")") := by
  rw [argument_eq, defaults_of_eq_some h, call_concat _ (frontArguments_ne_nil p)]

theorem Header.zeroSign?_eq_of_argument_append {p q : Parameter} (h : p.canonical = q.canonical)
    {a b : String} (heq : argument p ++ a = argument q ++ b) : p.zeroSign? = q.zeroSign? := by
  have hdefault := Parameter.default?_canonical h
  unfold Parameter.zeroSign?
  cases hp : p.default? with
  | none =>
    rw [hp] at hdefault
    rw [Option.map_eq_none_iff.mp hdefault.symm]
  | some v =>
    rw [hp] at hdefault
    obtain ⟨w, hw, hcanonical⟩ := Option.map_eq_some_iff.mp hdefault.symm
    have hmacro : argumentMacro q = argumentMacro p := by
      rw [Parameter.eq_of_canonical_eq h]
      unfold argumentMacro
      rw [hp, hw]
      rfl
    have hfront : frontArguments q = frontArguments p := by
      rw [Parameter.eq_of_canonical_eq h]
      rfl
    rw [argument_eq_of_eq_some hp, argument_eq_of_eq_some hw, hmacro, hfront] at heq
    simp only [String.append_assoc, String.append_right_inj] at heq
    rw [hw]
    exact DefaultValue.zeroSign?_eq_of_quote_append hcanonical.symm heq

namespace Signature

/-- The zeros among the defaults of the two signatures have the same signs. -/
def SameZeros (s t : Signature) : Prop :=
  s.parameters.map (·.zeroSign?) = t.parameters.map (·.zeroSign?)

instance (s t : Signature) : Decidable (s.SameZeros t) :=
  inferInstanceAs (Decidable (s.parameters.map (·.zeroSign?) = t.parameters.map (·.zeroSign?)))

variable {s t : Signature}

theorem Same.parameters (h : s.Same t) :
    s.parameters.map (·.canonical) = t.parameters.map (·.canonical) := by
  have hcanonical : s.canonical = t.canonical := h
  exact congrArg Signature.parameters hcanonical

theorem required_canonical (s : Signature) : s.canonical.required = s.required := by
  unfold required canonical
  rw [List.takeWhile_map, List.length_map]
  simp only [Function.comp_def, Parameter.isOptional_canonical]

theorem Same.opening (h : s.Same t) (name : String) : opening name s = opening name t := by
  have hcanonical : s.canonical = t.canonical := h
  have hrequired : s.required = t.required := by
    rw [← required_canonical, hcanonical, required_canonical]
  have hreturns := congrArg Signature.returns? hcanonical
  have hreference := congrArg Signature.returnsReference hcanonical
  dsimp only [canonical] at hreturns hreference
  unfold Header.opening
  rw [hrequired, hreturns, hreference]

theorem digest_eq_foldl_map (s : Signature) :
    s.digest = (s.parameters.map Digest.parameterKey).zipIdx.foldl
      (fun digest entry => digest * 0x4bc94d6bd06053ad +
        (Digest.marker entry.2 ^^^ Text.Digest.ofText entry.1)) (Digest.start s) := by
  rw [List.zipIdx_map, List.foldl_map]
  rfl

theorem digest_congr (hstart : Digest.start s = Digest.start t)
    (hkeys : s.parameters.map Digest.parameterKey = t.parameters.map Digest.parameterKey) :
    s.digest = t.digest := by
  rw [digest_eq_foldl_map, hkeys, hstart, ← digest_eq_foldl_map]

/-- The keys of parameters with the same signs of zeros are equal, and with them the digests. -/
theorem Same.digest_eq (h : s.Same t) (hzeros : s.SameZeros t) : s.digest = t.digest := by
  have hcanonical : s.canonical = t.canonical := h
  have hstart := congrArg Digest.start hcanonical
  exact digest_congr hstart (Parameter.map_congr Digest.parameterKey_congr h.parameters hzeros)

theorem Same.block_eq (h : s.Same t) (hzeros : s.SameZeros t) (name : String) :
    block name s = block name t := by
  have hline : ∀ {p q : Parameter}, p.canonical = q.canonical → p.zeroSign? = q.zeroSign? →
      (⟨1, argument p⟩ : Line) = ⟨1, argument q⟩ :=
    fun hp hsign => congrArg (Line.mk 1) (argument_congr hp hsign)
  unfold block
  rw [h.opening, Parameter.map_congr hline h.parameters hzeros]

end Signature

theorem Header.zeroSigns_eq_of_render_append {ps qs : List Parameter}
    (h : ps.map (·.canonical) = qs.map (·.canonical)) {a b : String}
    (heq : Line.renderAll (ps.map fun p => ⟨1, argument p⟩) ++ a =
      Line.renderAll (qs.map fun p => ⟨1, argument p⟩) ++ b) :
    ps.map (·.zeroSign?) = qs.map (·.zeroSign?) := by
  induction ps generalizing qs with
  | nil =>
    cases qs with
    | nil => rfl
    | cons q qs => cases h
  | cons p ps ih =>
    cases qs with
    | nil => cases h
    | cons q qs =>
      simp only [List.map_cons, List.cons.injEq] at h ⊢
      simp only [List.map_cons, Line.renderAll_cons, Line.render, String.append_assoc,
        String.append_right_inj] at heq
      have hsign := zeroSign?_eq_of_argument_append h.1 heq
      rw [argument_congr h.1 hsign] at heq
      simp only [String.append_right_inj] at heq
      exact ⟨hsign, ih h.2 heq⟩

theorem Header.renderAll_block (name : String) (s : Signature) :
    Line.renderAll (block name s) = Line.render ⟨0, opening name s⟩ ++
      (Line.renderAll (s.parameters.map fun p => ⟨1, argument p⟩) ++
        Line.renderAll [⟨0, "ZEND_END_ARG_INFO()"⟩]) := by
  unfold block
  rw [List.cons_append, Line.renderAll_cons, Line.renderAll_append]

namespace Signature

variable {s t : Signature}

theorem Same.sameZeros (h : s.Same t) {name : String}
    (htext : Line.renderAll (block name s) = Line.renderAll (block name t)) : s.SameZeros t := by
  rw [renderAll_block, renderAll_block, h.opening, String.append_right_inj] at htext
  exact zeroSigns_eq_of_render_append h.parameters htext

/-- Signatures that are the same have one digest if the zeros among their defaults have the same
signs; and this is what it takes for their blocks to be the same text. -/
theorem Same.renderAll_block_eq_iff (h : s.Same t) :
    (s.SameZeros t → s.digest = t.digest) ∧
      ∀ name, Line.renderAll (block name s) = Line.renderAll (block name t) ↔ s.SameZeros t := by
  refine ⟨h.digest_eq, fun name => ⟨h.sameZeros, fun hzeros => ?_⟩⟩
  rw [h.block_eq hzeros]

def clamp (nan : UInt64) : Signature where
  parameters := [
    { name := "value", type? := some (.scalar .float) },
    { name := "limit", default? := some (.float ⟨nan⟩) },
    { name := "offset", type? := some (.scalar .float), default? := some (.float .negativeZero) }]
  returns? := some (.scalar .float)

theorem renderAll_block_clamp :
    (clamp 0x7ff8000000000000).Same (clamp 0xfff0000000000001) ∧
      (clamp 0x7ff8000000000000).digest = (clamp 0xfff0000000000001).digest ∧
      Line.renderAll (block "arginfo_clamp" (clamp 0x7ff8000000000000)) =
        Line.renderAll (block "arginfo_clamp" (clamp 0xfff0000000000001)) := by
  have h : (clamp 0x7ff8000000000000).Same (clamp 0xfff0000000000001) := by decide
  have hzeros : (clamp 0x7ff8000000000000).SameZeros (clamp 0xfff0000000000001) := by decide
  obtain ⟨hdigest, hblock⟩ := h.renderAll_block_eq_iff
  exact ⟨h, hdigest hzeros, (hblock "arginfo_clamp").mpr hzeros⟩

def round (precision : Binary64) : Signature where
  parameters := [{ name := "a", default? := some (.float precision) }]

/-- Zero and the negative zero compare equal and are digested and written apart. -/
theorem not_renderAll_block_eq_of_same :
    (round ⟨0⟩).Same (round .negativeZero) ∧
      (round ⟨0⟩).digest ≠ (round .negativeZero).digest ∧
      Line.renderAll (block "arginfo_a" (round ⟨0⟩)) ≠
        Line.renderAll (block "arginfo_a" (round .negativeZero)) := by
  decide +kernel

end Signature

end ExtensionHeader
