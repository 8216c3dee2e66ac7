import ExtensionHeader.Proofs.Rules

/-! The order of parameters. A list of parameters passes the three rules about it exactly if it is
made of required parameters, then of parameters with a default, then of at most one that takes all
further arguments. In such a list the required parameters are those before the first optional
one. -/
namespace ExtensionHeader

namespace Parameter

def isRequired (p : Parameter) : Bool := p.default?.isNone && !p.isVariadic

def hasDefault (p : Parameter) : Bool := p.default?.isSome && !p.isVariadic

def takesRest (p : Parameter) : Bool := p.default?.isNone && p.isVariadic

theorem isRequired_eq (p : Parameter) : p.isRequired = !p.isOptional := by
  unfold isRequired isOptional
  rw [Bool.not_or, Option.not_isSome]

theorem isRequired_of_hasDefault {p : Parameter} (h : p.hasDefault = true) :
    p.isRequired = false := by
  unfold isRequired
  unfold hasDefault at h
  rw [Bool.and_eq_true] at h
  rw [← Option.not_isSome, h.1, Bool.not_true, Bool.false_and]

theorem hasDefault_of_isRequired {p : Parameter} (h : p.isRequired = true) :
    p.hasDefault = false := by
  rw [← Bool.not_eq_true]
  intro hdefault
  rw [isRequired_of_hasDefault hdefault] at h
  contradiction

theorem isRequired_of_takesRest {p : Parameter} (h : p.takesRest = true) :
    p.isRequired = false := by
  unfold isRequired
  unfold takesRest at h
  rw [Bool.and_eq_true] at h
  rw [h.2, Bool.not_true, Bool.and_false]

/-- Required parameters, then those with a default, then at most one that takes the rest. -/
def InOrder (ps : List Parameter) : Prop :=
  ∃ required defaulted rest : List Parameter, ps = required ++ defaulted ++ rest ∧
    (∀ p ∈ required, p.isRequired = true) ∧ (∀ p ∈ defaulted, p.hasDefault = true) ∧
    (∀ p ∈ rest, p.takesRest = true) ∧ rest.length ≤ 1

inductive Follow : Bool → List Parameter → Prop where
  | done (late : Bool) : Follow late []
  | required {p : Parameter} {rest : List Parameter} (own : p.isRequired = true)
    (next : Follow false rest) : Follow false (p :: rest)
  | defaulted {late : Bool} {p : Parameter} {rest : List Parameter} (own : p.hasDefault = true)
    (next : Follow true rest) : Follow late (p :: rest)
  | last {late : Bool} {p : Parameter} (own : p.takesRest = true) : Follow late [p]

theorem follow_cons_iff {late : Bool} {p : Parameter} {rest : List Parameter} :
    Follow late (p :: rest) ↔
      p.isRequired = true ∧ late = false ∧ Follow false rest ∨
        p.hasDefault = true ∧ Follow true rest ∨ p.takesRest = true ∧ rest = [] := by
  constructor
  · rintro (_ | ⟨own, next⟩ | ⟨own, next⟩ | own)
    · exact .inl ⟨own, rfl, next⟩
    · exact .inr (.inl ⟨own, next⟩)
    · exact .inr (.inr ⟨own, rfl⟩)
  · rintro (⟨own, rfl, next⟩ | ⟨own, next⟩ | ⟨own, rfl⟩)
    · exact .required own next
    · exact .defaulted own next
    · exact .last own

theorem Follow.exists_defaulted {ps : List Parameter} (h : Follow true ps) :
    ∃ defaulted rest : List Parameter, ps = defaulted ++ rest ∧
      (∀ p ∈ defaulted, p.hasDefault = true) ∧ (∀ p ∈ rest, p.takesRest = true) ∧
        rest.length ≤ 1 := by
  induction ps with
  | nil => exact ⟨[], [], rfl, by simp⟩
  | cons p tail ih =>
    rcases follow_cons_iff.mp h with ⟨-, hlate, -⟩ | ⟨own, next⟩ | ⟨own, rfl⟩
    · contradiction
    · obtain ⟨defaulted, rest, rfl, hdefaulted, hrest⟩ := ih next
      exact ⟨p :: defaulted, rest, rfl, List.forall_mem_cons.mpr ⟨own, hdefaulted⟩, hrest⟩
    · exact ⟨[], [p], rfl, by simp, by simpa using own, Nat.le_refl 1⟩

theorem Follow.inOrder {ps : List Parameter} (h : Follow false ps) : InOrder ps := by
  induction ps with
  | nil => exact ⟨[], [], [], rfl, by simp⟩
  | cons p tail ih =>
    rcases follow_cons_iff.mp h with ⟨own, -, next⟩ | ⟨own, next⟩ | ⟨own, rfl⟩
    · obtain ⟨required, defaulted, rest, rfl, hrequired, hothers⟩ := ih next
      exact ⟨p :: required, defaulted, rest, rfl,
        List.forall_mem_cons.mpr ⟨own, hrequired⟩, hothers⟩
    · obtain ⟨defaulted, rest, rfl, hdefaulted, hrest⟩ := next.exists_defaulted
      exact ⟨[], p :: defaulted, rest, rfl, by simp,
        List.forall_mem_cons.mpr ⟨own, hdefaulted⟩, hrest⟩
    · exact ⟨[], [], [p], rfl, by simp, by simp, by simpa using own, Nat.le_refl 1⟩

theorem follow_rest (late : Bool) {rest : List Parameter}
    (hrest : ∀ p ∈ rest, p.takesRest = true) (hlength : rest.length ≤ 1) : Follow late rest := by
  match rest with
  | [] => exact .done late
  | [p] => exact .last (hrest p List.mem_cons_self)
  | _ :: _ :: _ => simp at hlength

theorem Follow.defaulted_append {defaulted rest : List Parameter} (h : Follow true rest)
    (hrest : Follow false rest) (hdefaulted : ∀ p ∈ defaulted, p.hasDefault = true)
    (late : Bool) : Follow late (defaulted ++ rest) := by
  induction defaulted generalizing late with
  | nil => cases late <;> assumption
  | cons p tail ih =>
    obtain ⟨own, htail⟩ := List.forall_mem_cons.mp hdefaulted
    exact .defaulted own (ih htail true)

theorem Follow.required_append {required others : List Parameter} (h : Follow false others)
    (hrequired : ∀ p ∈ required, p.isRequired = true) : Follow false (required ++ others) := by
  induction required with
  | nil => exact h
  | cons p tail ih =>
    obtain ⟨own, htail⟩ := List.forall_mem_cons.mp hrequired
    exact .required own (ih htail)

theorem follow_iff_inOrder (ps : List Parameter) : Follow false ps ↔ InOrder ps := by
  constructor
  · exact Follow.inOrder
  · rintro ⟨required, defaulted, rest, rfl, hrequired, hdefaulted, hrest, hlength⟩
    rw [List.append_assoc]
    apply Follow.required_append _ hrequired
    exact (follow_rest true hrest hlength).defaulted_append (follow_rest false hrest hlength)
      hdefaulted false

theorem InOrder.exists_append {ps : List Parameter} (h : InOrder ps) :
    ∃ required others : List Parameter, ps = required ++ others ∧
      (∀ p ∈ required, p.isRequired = true) ∧ ∀ p ∈ others, p.isRequired = false := by
  obtain ⟨required, defaulted, rest, rfl, hrequired, hdefaulted, hrest, -⟩ := h
  refine ⟨required, defaulted ++ rest, List.append_assoc _ _ _, hrequired, ?_⟩
  rw [List.forall_mem_append]
  exact ⟨fun p hp => isRequired_of_hasDefault (hdefaulted p hp),
    fun p hp => isRequired_of_takesRest (hrest p hp)⟩

theorem InOrder.takeWhile_eq_filter {ps : List Parameter} (h : InOrder ps) :
    ps.takeWhile isRequired = ps.filter isRequired := by
  obtain ⟨required, others, rfl, hrequired, hothers⟩ := h.exists_append
  have hfilter : others.filter isRequired = [] :=
    List.filter_eq_nil_iff.mpr fun p hp => by simp [hothers p hp]
  have htake : others.takeWhile isRequired = [] := by
    cases others with
    | nil => rfl
    | cons p tail => exact List.takeWhile_cons_of_neg (by simp [hothers p List.mem_cons_self])
  rw [List.takeWhile_append_of_pos hrequired, List.filter_append,
    List.filter_eq_self.mpr hrequired, htake, hfilter]

end Parameter

theorem Signature.required_eq (s : Signature) :
    s.required = (s.parameters.takeWhile (·.isRequired)).length := by
  unfold required
  simp only [Parameter.isRequired_eq]

namespace Validation

open Parameter Diagnostic

theorem ofOrder_eq_nil_iff (location : Location) (earlier : List Parameter) (isLast : Bool)
    (p : Parameter) :
    ofOrder location earlier isLast p = [] ↔
      p.isRequired = true ∧ earlier.any hasDefault = false ∨ p.hasDefault = true ∨
        p.takesRest = true ∧ isLast = true := by
  have hany : (earlier.any fun q => q.default?.isSome && !q.isVariadic) =
      earlier.any hasDefault := rfl
  unfold ofOrder isRequired takesRest
  rw [hany]
  unfold hasDefault
  cases p.isVariadic <;> cases p.default? <;> simp

theorem ofParameter_order_iff (owner : Location) (count : Nat) (earlier : List Parameter)
    (p : Parameter) :
    (∀ d ∈ ofParameter owner count earlier p, d.rule ∉ orderRules) ↔
      ofOrder (.parameter owner p.name) earlier (earlier.length + 1 = count) p = [] := by
  constructor
  · intro h
    rw [List.eq_nil_iff_forall_not_mem]
    intro d hd
    have hmem : d ∈ ofParameter owner count earlier p := by
      simp only [ofParameter, List.mem_append, hd, or_true, true_or]
    exact h d hmem (under_ofOrder _ _ _ _ d hd)
  · intro h
    unfold ofParameter
    simp only [h, List.append_nil, List.forall_mem_append]
    refine ⟨⟨⟨?_, ?_⟩, ?_⟩, ?_⟩
    · exact (under_ofSimpleName _ _).forall_not_mem (by decide)
    · intro d hd
      obtain ⟨-, rfl⟩ := mem_when.mp hd
      simp [orderRules]
    · exact (under_ofOptionalType _ _ _).forall_not_mem (by decide)
    · exact (under_ofDefault _ _ _).forall_not_mem (by decide)

/-- What the parameters so far leave to those that follow is whether one of them has a default. -/
theorem ofParameters_order_iff (owner : Location) {count : Nat} {earlier ps : List Parameter}
    (h : earlier.length + ps.length = count) :
    (∀ d ∈ (Sequence.mapEarlierFrom (ofParameter owner count) earlier ps).flatten,
      d.rule ∉ orderRules) ↔ Follow (earlier.any hasDefault) ps := by
  induction ps generalizing earlier with
  | nil => simp [Sequence.mapEarlierFrom, Follow.done]
  | cons p rest ih =>
    rw [List.length_cons] at h
    have hlast : earlier.length + 1 = count ↔ rest = [] := by
      rw [← List.length_eq_zero_iff]
      omega
    have hcount : (earlier ++ [p]).length + rest.length = count := by
      rw [List.length_append, List.length_singleton]
      omega
    have hrest := ih hcount
    rw [List.any_append, List.any_cons, List.any_nil, Bool.or_false] at hrest
    rw [Sequence.mapEarlierFrom, List.flatten_cons, List.forall_mem_append, hrest,
      ofParameter_order_iff, ofOrder_eq_nil_iff, follow_cons_iff, decide_eq_true_iff, hlast]
    constructor
    · rintro ⟨⟨own, hearlier⟩ | own | ⟨own, rfl⟩, next⟩
      · rw [hearlier, hasDefault_of_isRequired own] at next
        exact .inl ⟨own, hearlier, next⟩
      · rw [own, Bool.or_true] at next
        exact .inr (.inl ⟨own, next⟩)
      · exact .inr (.inr ⟨own, rfl⟩)
    · rintro (⟨own, hearlier, next⟩ | ⟨own, next⟩ | ⟨own, rfl⟩)
      · rw [hearlier, hasDefault_of_isRequired own]
        exact ⟨.inl ⟨own, rfl⟩, next⟩
      · rw [own, Bool.or_true]
        exact ⟨.inr (.inl rfl), next⟩
      · exact ⟨.inr (.inr ⟨own, rfl⟩), .done _⟩

theorem forall_not_mem_orderRules_iff (location : Location) (s : Signature) :
    (∀ d ∈ ofSignature location s, d.rule ∉ orderRules) ↔ InOrder s.parameters := by
  have hresult : ∀ d ∈ ofOptionalType .result location s.returns?, d.rule ∉ orderRules :=
    (under_ofOptionalType _ _ _).forall_not_mem (by decide)
  have hparameters : (∀ d ∈ Sequence.flatMapEarlier
      (ofParameter location s.parameters.length) s.parameters, d.rule ∉ orderRules) ↔
      Follow false s.parameters :=
    ofParameters_order_iff location (Nat.zero_add _)
  unfold ofSignature
  rw [List.forall_mem_append, and_iff_left hresult, hparameters, follow_iff_inOrder]

/-- The rules about order are kept exactly by the lists of required parameters, then parameters with
a default, then at most one that takes the rest. In such a list the arguments that every call gives
are as many as there are required parameters, and they are given to exactly these. -/
theorem ofSignature_inOrder_iff (location : Location) (s : Signature) :
    ((∀ d ∈ ofSignature location s,
        d.rule ∉ [.parameterOrder, .variadicNotLast, .variadicDefault]) ↔
      InOrder s.parameters) ∧
    (InOrder s.parameters →
      s.required = s.parameters.countP (·.isRequired) ∧
      s.parameters.filter (·.isRequired) = s.parameters.take s.required) := by
  refine ⟨forall_not_mem_orderRules_iff location s, fun h => ?_⟩
  have hfilter := h.takeWhile_eq_filter
  constructor
  · rw [s.required_eq, hfilter, List.countP_eq_length_filter]
  · rw [← hfilter, s.required_eq]
    exact List.prefix_iff_eq_take.mp (List.takeWhile_prefix _)

def formatted : Signature where
  parameters := [{ name := "target", byReference := true },
    { name := "pattern", type? := some (.scalar .string) },
    { name := "mode", type? := some (.scalar .int), default? := some (.int 0) },
    { name := "values", isVariadic := true }]

theorem ofSignature_inOrder_iff_formatted :
    InOrder formatted.parameters ∧
    (∀ d ∈ ofSignature (.function ⟨[], "format"⟩) formatted,
      d.rule ∉ [.parameterOrder, .variadicNotLast, .variadicDefault]) ∧
    formatted.required = 2 ∧
    formatted.parameters.filter (·.isRequired) = formatted.parameters.take 2 := by
  have horder : InOrder formatted.parameters :=
    ⟨formatted.parameters.take 2, (formatted.parameters.drop 2).take 1,
      formatted.parameters.drop 3, rfl, by decide, by decide, by decide, by decide⟩
  obtain ⟨hiff, hrequired⟩ := ofSignature_inOrder_iff (.function ⟨[], "format"⟩) formatted
  obtain ⟨hcount, hfirst⟩ := hrequired horder
  have htwo : formatted.required = 2 := hcount.trans (by decide)
  exact ⟨horder, hiff.mpr horder, htwo, by rwa [htwo] at hfirst⟩

end Validation

end ExtensionHeader
