import ExtensionHeader.Proofs.Acceptance
import ExtensionHeader.Typing.Declared

/-! Masks as sets of type numbers, and which masks the unions that are built up in steps have. The
number of resources only comes in with `mixed`, which brings all of its numbers and null. -/
namespace ExtensionHeader

theorem TypeCode.value_lt (code : TypeCode) : code.value < 32 := by
  cases code <;> decide

namespace TypeMask

def has (m : TypeMask) (i : Nat) : Bool := m.bits.getLsbD i

theorem ext_has {a b : TypeMask} (h : ∀ i, a.has i = b.has i) : a = b := by
  have hbits : a.bits = b.bits := BitVec.eq_of_getLsbD_eq fun i _ => h i
  cases a
  cases b
  exact congrArg TypeMask.mk hbits

@[simp] theorem has_empty (i : Nat) : empty.has i = false := BitVec.getLsbD_zero

@[simp] theorem has_union (a b : TypeMask) (i : Nat) : (a ∪ b).has i = (a.has i || b.has i) :=
  BitVec.getLsbD_or

@[simp] theorem has_difference (a b : TypeMask) (i : Nat) :
    (a \ b).has i = (a.has i && !b.has i) := by
  have hbits : (a \ b).has i = (a.has i && (decide (i < 32) && !b.has i)) := by
    change (a.bits &&& ~~~b.bits).getLsbD i = _
    rw [BitVec.getLsbD_and, BitVec.getLsbD_not]
    rfl
  cases ha : a.has i with
  | false => rw [hbits, ha, Bool.false_and, Bool.false_and]
  | true =>
    have hi : i < 32 := BitVec.lt_of_getLsbD ha
    simp [hbits, ha, hi]

@[simp] theorem has_ofCode (code : TypeCode) (i : Nat) :
    (ofCode code).has i = decide (i = code.value) := by
  have hlt := code.value_lt
  change (1#32 <<< code.value).getLsbD i = _
  rw [← BitVec.twoPow_eq, BitVec.getLsbD_twoPow]
  rw [Bool.eq_iff_iff]
  simp only [Bool.and_eq_true, decide_eq_true_eq]
  omega

@[simp] theorem union_empty (m : TypeMask) : m ∪ empty = m := by
  apply ext_has
  intro i
  rw [has_union, has_empty, Bool.or_false]

@[simp] theorem empty_union (m : TypeMask) : empty ∪ m = m := by
  apply ext_has
  intro i
  rw [has_union, has_empty, Bool.false_or]

theorem contains_iff {a b : TypeMask} :
    a.contains b = true ↔ ∀ i, b.has i = true → a.has i = true := by
  unfold contains
  rw [decide_eq_true_iff]
  constructor
  · intro h i hi
    have hboth : (a.bits &&& b.bits).getLsbD i = true := by
      rw [h]
      exact hi
    rw [BitVec.getLsbD_and, Bool.and_eq_true] at hboth
    exact hboth.1
  · intro h
    apply BitVec.eq_of_getLsbD_eq
    intro i _
    rw [BitVec.getLsbD_and]
    cases hb : b.bits.getLsbD i with
    | false => exact Bool.and_false _
    | true =>
      rw [Bool.and_true]
      exact h i hb

@[simp] theorem contains_ofCode (m : TypeMask) (code : TypeCode) :
    m.contains (ofCode code) = m.has code.value := by
  rw [Bool.eq_iff_iff, contains_iff]
  simp

theorem isEmpty_iff {m : TypeMask} : m.isEmpty = true ↔ m = empty := by
  unfold isEmpty
  rw [decide_eq_true_iff]
  constructor
  · exact congrArg TypeMask.mk
  · rintro rfl
    rfl

theorem has_any (i : Nat) : any.has i = decide (1 ≤ i ∧ i ≤ 9) := by
  rw [Bool.eq_iff_iff]
  simp only [any, null, bool, has_union, has_ofCode, Bool.or_eq_true, decide_eq_true_eq]
  simp only [TypeCode.value]
  omega

def named : List TypeCode :=
  [.null, .false, .true, .long, .double, .string, .array, .object, .callable, .void]

/-- An expression names all of the mask: resources have a name only together with all values. -/
def Named (m : TypeMask) : Prop :=
  ∀ i, m.has i = true →
    (∃ code ∈ named, i = code.value) ∨ i = TypeCode.resource.value ∧ m.contains any = true

theorem Named.union {a b : TypeMask} (ha : a.Named) (hb : b.Named) : (a ∪ b).Named := by
  have hcontains : ∀ m : TypeMask, (∀ i, m.has i = true → (a ∪ b).has i = true) →
      m.contains any = true → (a ∪ b).contains any = true := by
    intro m hm hany
    exact contains_iff.mpr fun i hi => hm i (contains_iff.mp hany i hi)
  intro i hi
  rw [has_union, Bool.or_eq_true] at hi
  rcases hi with hi | hi
  · refine (ha i hi).imp_right (And.imp_right (hcontains a ?_))
    intro j hj
    rw [has_union, hj, Bool.true_or]
  · refine (hb i hi).imp_right (And.imp_right (hcontains b ?_))
    intro j hj
    rw [has_union, hj, Bool.or_true]

theorem named_empty : empty.Named := by
  intro i hi
  rw [has_empty] at hi
  contradiction

theorem named_ofCode {code : TypeCode} (h : code ∈ named) : (ofCode code).Named := by
  intro i hi
  rw [has_ofCode, decide_eq_true_iff] at hi
  exact .inl ⟨code, h, hi⟩

theorem named_any : any.Named := by
  intro i hi
  have hbounds := hi
  rw [has_any, decide_eq_true_iff] at hbounds
  by_cases hresource : i = 9
  · exact .inr ⟨hresource, contains_iff.mpr fun _ hj => hj⟩
  · have hcode : ∀ j < 9, 1 ≤ j → ∃ code ∈ named, j = code.value := by decide
    exact .inl (hcode i (by omega) hbounds.1)

theorem Named.eq_any {m : TypeMask} (h : m.Named) (hany : m.contains any = true)
    (hcallable : m.contains callable = false) (hvoid : m.contains void = false) : m = any := by
  apply ext_has
  intro i
  rw [Bool.eq_iff_iff]
  refine ⟨fun hi => ?_, contains_iff.mp hany i⟩
  unfold callable at hcallable
  unfold void at hvoid
  rw [contains_ofCode] at hcallable hvoid
  rcases h i hi with ⟨code, hcode, rfl⟩ | ⟨rfl, -⟩
  · cases code with
    | callable => exact absurd hi (by simp [hcallable])
    | void => exact absurd hi (by simp [hvoid])
    | mixed | bool => contradiction
    | _ => decide
  · decide

end TypeMask

theorem Scalar.named_mask (kind : Scalar) : kind.mask.Named := by
  cases kind with
  | bool => exact (TypeMask.named_ofCode (by decide)).union (TypeMask.named_ofCode (by decide))
  | mixed => exact TypeMask.named_any
  | _ => exact TypeMask.named_ofCode (by decide)

namespace UnionType

structure Regular (u : UnionType) : Prop where
  named : u.scalars.Named
  /-- Null is a scalar member only as a part of `mixed`, which is nullable. -/
  null : u.scalars.has TypeCode.null.value = true → u.isNullable = true

theorem regular_empty : empty.Regular where
  named := TypeMask.named_empty
  null := by
    intro h
    exact absurd h (by decide)

theorem Regular.withScalar {u : UnionType} (h : u.Regular) (kind : Scalar) :
    (u.withScalar kind).Regular := by
  cases kind with
  | null => exact ⟨h.named, fun _ => rfl⟩
  | mixed => exact ⟨h.named.union TypeMask.named_any, fun _ => rfl⟩
  | _ =>
    refine ⟨h.named.union (Scalar.named_mask _), fun hnull => h.null ?_⟩
    simpa [UnionType.withScalar, Scalar.mask, Scalar.code, TypeMask.bool, TypeCode.value]
      using hnull

theorem Regular.add {u : UnionType} (h : u.Regular) (step : Step) : (u.add step).Regular := by
  cases step with
  | scalar kind => exact h.withScalar kind
  | cls name => exact ⟨h.named, h.null⟩
  | nullable => exact ⟨h.named, fun _ => rfl⟩

theorem regular_ofSteps (steps : List Step) : (ofSteps steps).Regular := by
  have hfold : ∀ u : UnionType, u.Regular → (steps.foldl UnionType.add u).Regular := by
    induction steps with
    | nil => exact fun _ h => h
    | cons step rest ih => exact fun u h => ih (u.add step) (h.add step)
  exact hfold empty regular_empty

theorem Regular.named_mask {u : UnionType} (h : u.Regular) : u.mask.Named := by
  unfold UnionType.mask
  split
  · exact h.named.union (TypeMask.named_ofCode (by decide))
  · exact h.named

theorem Regular.mask_eq {u : UnionType} (h : u.Regular) :
    u.mask = u.scalarMask ∪ if u.isNullable then .null else .empty := by
  apply TypeMask.ext_has
  intro i
  unfold UnionType.mask scalarMask TypeMask.null
  cases hnull : u.isNullable with
  | true =>
    by_cases hi : i = TypeCode.null.value <;> simp [hi]
  | false =>
    have habsent : u.scalars.has TypeCode.null.value = false := by
      rw [← Bool.not_eq_true]
      intro hhas
      rw [h.null hhas] at hnull
      contradiction
    by_cases hi : i = TypeCode.null.value <;> simp [hi, habsent]

structure Declarable (u : UnionType) : Prop where
  nonempty : u.isEmpty = false
  void : u.mask.contains .void = false
  callable : u.mask.contains .callable = false
  mixed : u.mask.contains .any = true → u.classes = []

theorem ofUnion_eq_nil_iff {position : Validation.Position} {location : Location}
    {u : UnionType} :
    Validation.ofUnion position location u = [] ↔
      u.isEmpty = false ∧ (u.classes.map (·.folded)).Nodup ∧
      (u.classes.map Identifier.ofName).Nodup ∧ u.mask.contains .void = false ∧
      (u.mask.contains .any = true → u.classes = []) ∧
      (position = .property → u.mask.contains .callable = false) := by
  unfold Validation.ofUnion
  cases u.isEmpty with
  | true => simp
  | false =>
    simp only [Bool.false_eq_true, if_false, List.append_eq_nil_iff, and_assoc,
      Validation.ofUnionClasses_eq_nil_iff, Diagnostic.when_eq_nil_iff, Bool.and_eq_false_imp,
      Bool.not_eq_false', List.isEmpty_iff, decide_eq_true_eq, true_and]

theorem declarable_of_ofUnion {location : Location} {u : UnionType}
    (h : Validation.ofUnion .property location u = []) : u.Declarable := by
  obtain ⟨hempty, -, -, hvoid, hmixed, hcallable⟩ := ofUnion_eq_nil_iff.mp h
  exact ⟨hempty, hvoid, hcallable rfl, hmixed⟩

end UnionType

namespace DeclaredType

/-- Unions are only built up in steps. -/
def IsBuilt (t : DeclaredType) : Prop :=
  ∀ u, t = .union u → ∃ steps, u = UnionType.ofSteps steps

theorem isBuilt_scalar (kind : Scalar) : (scalar kind).IsBuilt := fun _ h => absurd h nofun

theorem isBuilt_cls (name : QualifiedName) : (cls name).IsBuilt := fun _ h => absurd h nofun

theorem isBuilt_ofSteps (steps : List UnionType.Step) : (union (.ofSteps steps)).IsBuilt :=
  fun _ h => ⟨steps, (union.inj h).symm⟩

theorem IsBuilt.regular {u : UnionType} (h : (union u).IsBuilt) : u.Regular := by
  obtain ⟨steps, rfl⟩ := h u rfl
  exact UnionType.regular_ofSteps steps

end DeclaredType

end ExtensionHeader
