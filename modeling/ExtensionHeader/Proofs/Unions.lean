import ExtensionHeader.Proofs.Typing

/-! Unions and the steps that build them. A union keeps its classes as a list but only the bits of its
scalar types, so the steps cannot be read back from it; those that validation asks about still show,
as each of these types brings a bit of its own. -/
namespace ExtensionHeader

open Validation

namespace Scalar

theorem exists_has_mask (kind : Scalar) : ∃ i, kind.mask.has i = true := by
  cases kind with
  | bool => exact ⟨TypeCode.false.value, by decide⟩
  | mixed => exact ⟨TypeCode.null.value, by decide⟩
  | _ => exact ⟨_, (TypeMask.has_ofCode _ _).trans (decide_eq_true rfl)⟩

def Marks (kind : Scalar) (code : TypeCode) : Prop :=
  ∀ other : Scalar, other.mask.has code.value = true ↔ other = kind

theorem marks_void : Marks .void .void := by
  intro other
  cases other <;> decide

theorem marks_callable : Marks .callable .callable := by
  intro other
  cases other <;> decide

theorem marks_mixed : Marks .mixed .resource := by
  intro other
  cases other <;> decide

end Scalar

namespace UnionType

def Step.cls? : Step → Option QualifiedName
  | cls name => some name
  | _ => none

theorem mem_cls?_iff {steps : List Step} {name : QualifiedName} :
    name ∈ steps.filterMap Step.cls? ↔ .cls name ∈ steps := by
  rw [List.mem_filterMap]
  constructor
  · rintro ⟨step, hstep, hname⟩
    cases step <;> simp_all [Step.cls?]
  · exact fun h => ⟨_, h, rfl⟩

/-! What one more step adds. -/

section add

variable (u : UnionType)

theorem classes_add (step : Step) : (u.add step).classes = u.classes ++ step.cls?.toList := by
  cases step with
  | scalar kind => cases kind <;> exact (List.append_nil _).symm
  | cls name => rfl
  | nullable => exact (List.append_nil _).symm

theorem isNullable_add (step : Step) :
    (u.add step).isNullable = true ↔ u.isNullable = true ∨
      step = .nullable ∨ step = .scalar .null ∨ step = .scalar .mixed := by
  cases step with
  | scalar kind => cases kind <;> simp [add, withScalar]
  | cls name => simp [add, withClass]
  | nullable => simp [add, nullable]

theorem has_scalars_add (step : Step) (i : Nat) :
    (u.add step).scalars.has i = true ↔ u.scalars.has i = true ∨
      ∃ kind, step = .scalar kind ∧ kind ≠ .null ∧ kind.mask.has i = true := by
  cases step with
  | scalar kind => cases kind <;> simp [add, withScalar, Scalar.mask]
  | cls name => simp [add, withClass]
  | nullable => simp [add, nullable]

theorem has_mask (i : Nat) :
    u.mask.has i = true ↔
      u.scalars.has i = true ∨ u.isNullable = true ∧ i = TypeCode.null.value := by
  unfold mask TypeMask.null
  cases u.isNullable <;> simp

end add

/-! What a sequence of steps gives. -/

section ofSteps

variable (steps : List Step)

theorem ofSteps_append (step : Step) : ofSteps (steps ++ [step]) = (ofSteps steps).add step := by
  unfold ofSteps
  rw [List.foldl_append]
  rfl

theorem classes_ofSteps : (ofSteps steps).classes = steps.filterMap Step.cls? := by
  induction steps using List.reverseRecOn with
  | nil => rfl
  | append_singleton rest step ih =>
    rw [ofSteps_append, classes_add, ih, List.filterMap_append]
    cases step <;> rfl

theorem isNullable_ofSteps :
    (ofSteps steps).isNullable = true ↔
      .nullable ∈ steps ∨ .scalar .null ∈ steps ∨ .scalar .mixed ∈ steps := by
  induction steps using List.reverseRecOn with
  | nil => simp [ofSteps, empty]
  | append_singleton rest step ih =>
    rw [ofSteps_append, isNullable_add, ih]
    simp only [List.mem_append, List.mem_singleton, eq_comm (b := step)]
    tauto

theorem has_scalars_ofSteps (i : Nat) :
    (ofSteps steps).scalars.has i = true ↔
      ∃ kind, .scalar kind ∈ steps ∧ kind ≠ .null ∧ kind.mask.has i = true := by
  induction steps using List.reverseRecOn with
  | nil => simp [ofSteps, empty]
  | append_singleton rest step ih =>
    rw [ofSteps_append, has_scalars_add, ih, ← exists_or]
    simp only [List.mem_append, List.mem_singleton, or_and_right, eq_comm]

theorem has_mask_ofSteps {kind : Scalar} {code : TypeCode} (h : kind.Marks code)
    (hcode : code.value ≠ TypeCode.null.value) :
    (ofSteps steps).mask.has code.value = true ↔ .scalar kind ∈ steps := by
  rw [has_mask, has_scalars_ofSteps, or_iff_left fun hnull => hcode hnull.2]
  constructor
  · rintro ⟨other, hother, -, hhas⟩
    rwa [(h other).mp hhas] at hother
  · intro hkind
    have hown : kind.mask.has code.value = true := (h kind).mpr rfl
    refine ⟨kind, hkind, ?_, hown⟩
    rintro rfl
    exact hcode (of_decide_eq_true ((TypeMask.has_ofCode .null _).symm.trans hown))

theorem contains_void_ofSteps :
    (ofSteps steps).mask.contains .void = true ↔ .scalar .void ∈ steps := by
  unfold TypeMask.void
  rw [TypeMask.contains_ofCode]
  exact has_mask_ofSteps steps Scalar.marks_void (by decide)

theorem contains_callable_ofSteps :
    (ofSteps steps).mask.contains .callable = true ↔ .scalar .callable ∈ steps := by
  unfold TypeMask.callable
  rw [TypeMask.contains_ofCode]
  exact has_mask_ofSteps steps Scalar.marks_callable (by decide)

theorem contains_any_ofSteps :
    (ofSteps steps).mask.contains .any = true ↔ .scalar .mixed ∈ steps := by
  rw [← has_mask_ofSteps steps Scalar.marks_mixed (by decide), TypeMask.contains_iff]
  constructor
  · exact fun h => h _ (by decide)
  · intro hresource i hi
    have hmixed := (has_mask_ofSteps steps Scalar.marks_mixed (by decide)).mp hresource
    have hscalars : (ofSteps steps).scalars.has i = true :=
      (has_scalars_ofSteps steps i).mpr ⟨.mixed, hmixed, by decide, hi⟩
    exact (has_mask _ i).mpr (.inl hscalars)

theorem isEmpty_ofSteps : (ofSteps steps).isEmpty = false ↔ steps ≠ [] := by
  rw [← Bool.not_eq_true, not_iff_not]
  constructor
  · intro h
    unfold isEmpty at h
    simp only [Bool.and_eq_true, List.isEmpty_iff, Bool.not_eq_true', classes_ofSteps,
      TypeMask.isEmpty_iff, ← Bool.not_eq_true, isNullable_ofSteps] at h
    obtain ⟨⟨hclasses, hscalars⟩, hnull⟩ := h
    rw [List.eq_nil_iff_forall_not_mem]
    intro step hstep
    cases step with
    | cls name =>
      rw [← mem_cls?_iff, hclasses] at hstep
      exact List.not_mem_nil hstep
    | nullable => exact hnull (.inl hstep)
    | scalar kind =>
      by_cases hkind : kind = .null
      · exact hnull (.inr (.inl (hkind ▸ hstep)))
      · obtain ⟨i, hi⟩ := kind.exists_has_mask
        have hhas := (has_scalars_ofSteps steps i).mpr ⟨kind, hstep, hkind, hi⟩
        rw [hscalars, TypeMask.has_empty] at hhas
        contradiction
  · rintro rfl
    rfl

end ofSteps

/-- The steps of a union that may stand as a type at the position. -/
structure Admissible (position : Position) (steps : List Step) : Prop where
  nonempty : steps ≠ []
  void : .scalar .void ∉ steps
  /-- `mixed` stands alone; null is one of its values. -/
  mixed : .scalar .mixed ∈ steps →
    ∀ step ∈ steps, step = .scalar .mixed ∨ step = .scalar .null ∨ step = .nullable
  folded : ((steps.filterMap Step.cls?).map (·.folded)).Nodup
  identifiers : ((steps.filterMap Step.cls?).map Identifier.ofName).Nodup
  callable : position = .property → .scalar .callable ∉ steps

/-- Another scalar type than null was added beside `mixed`. -/
def Diluted (steps : List Step) : Prop :=
  .scalar .mixed ∈ steps ∧ ∃ kind, .scalar kind ∈ steps ∧ kind ≠ .mixed ∧ kind ≠ .null

/-- What validation looks at. Beside `mixed` it looks for classes only. -/
def Passes (position : Position) (steps : List Step) : Prop :=
  steps ≠ [] ∧ ((steps.filterMap Step.cls?).map (·.folded)).Nodup ∧
    ((steps.filterMap Step.cls?).map Identifier.ofName).Nodup ∧
    .scalar .void ∉ steps ∧ (.scalar .mixed ∈ steps → steps.filterMap Step.cls? = []) ∧
    (position = .property → .scalar .callable ∉ steps)

theorem ofUnion_ofSteps_iff (position : Position) (location : Location) (steps : List Step) :
    ofUnion position location (ofSteps steps) = [] ↔ Passes position steps := by
  unfold Passes
  rw [ofUnion_eq_nil_iff, isEmpty_ofSteps, classes_ofSteps, contains_any_ofSteps,
    ← Bool.not_eq_true, contains_void_ofSteps, ← Bool.not_eq_true, contains_callable_ofSteps]

theorem alone_iff {steps : List Step} :
    (∀ step ∈ steps, step = .scalar .mixed ∨ step = .scalar .null ∨ step = .nullable) ↔
      steps.filterMap Step.cls? = [] ∧
        ¬ ∃ kind, .scalar kind ∈ steps ∧ kind ≠ .mixed ∧ kind ≠ .null := by
  constructor
  · intro h
    refine ⟨List.eq_nil_iff_forall_not_mem.mpr fun name hname => ?_, ?_⟩
    · rcases h _ (mem_cls?_iff.mp hname) with heq | heq | heq <;> contradiction
    · rintro ⟨kind, hkind, hmixed, hnull⟩
      rcases h _ hkind with heq | heq | heq
      · exact hmixed (Step.scalar.inj heq)
      · exact hnull (Step.scalar.inj heq)
      · contradiction
  · rintro ⟨hclasses, hscalars⟩ step hstep
    cases step with
    | cls name =>
      rw [← mem_cls?_iff, hclasses] at hstep
      exact absurd hstep List.not_mem_nil
    | nullable => exact .inr (.inr rfl)
    | scalar kind =>
      by_cases hmixed : kind = .mixed
      · exact .inl (congrArg Step.scalar hmixed)
      · by_cases hnull : kind = .null
        · exact .inr (.inl (congrArg Step.scalar hnull))
        · exact absurd ⟨kind, hstep, hmixed, hnull⟩ hscalars

theorem admissible_iff {position : Position} {steps : List Step} :
    Admissible position steps ↔ ¬ Diluted steps ∧ Passes position steps := by
  unfold Passes
  constructor
  · intro h
    refine ⟨?_, h.nonempty, h.folded, h.identifiers, h.void, ?_, h.callable⟩
    · rintro ⟨hmixed, hother⟩
      exact (alone_iff.mp (h.mixed hmixed)).2 hother
    · exact fun hmixed => (alone_iff.mp (h.mixed hmixed)).1
  · rintro ⟨hdiluted, hnonempty, hfolded, hidentifiers, hvoid, hclasses, hcallable⟩
    have hmixed : .scalar .mixed ∈ steps →
        ∀ step ∈ steps, step = .scalar .mixed ∨ step = .scalar .null ∨ step = .nullable :=
      fun h => alone_iff.mpr ⟨hclasses h, fun hother => hdiluted ⟨h, hother⟩⟩
    exact ⟨hnonempty, hvoid, hmixed, hfolded, hidentifiers, hcallable⟩

/-- The unions that validation accepts at a position are those whose steps are admissible there,
unless another scalar type than null was added beside `mixed`. Such steps are never admissible, but
without a class they are accepted all the same. -/
theorem ofType_ofSteps_iff (position : Position) (location : Location) (steps : List Step) :
    (¬ Diluted steps → (ofType position location (.union (.ofSteps steps)) = [] ↔
      Admissible position steps)) ∧
    (Diluted steps → ¬ Admissible position steps ∧
      (ofType position location (.union (.ofSteps steps)) = [] ↔
        (∀ name, .cls name ∉ steps) ∧ .scalar .void ∉ steps ∧
        (position = .property → .scalar .callable ∉ steps))) := by
  have haccepted : ofType position location (.union (.ofSteps steps)) = [] ↔
      Passes position steps := ofUnion_ofSteps_iff position location steps
  rw [haccepted]
  constructor
  · intro h
    rw [admissible_iff, and_iff_right h]
  · intro h
    refine ⟨fun hadmissible => (admissible_iff.mp hadmissible).1 h, ?_⟩
    have hnonempty : steps ≠ [] := List.ne_nil_of_mem h.1
    have hclasses : (∀ name, .cls name ∉ steps) ↔ steps.filterMap Step.cls? = [] := by
      simp only [← mem_cls?_iff, List.eq_nil_iff_forall_not_mem]
    rw [hclasses]
    unfold Passes
    constructor
    · rintro ⟨-, -, -, hvoid, hmixed, hcallable⟩
      exact ⟨hmixed h.1, hvoid, hcallable⟩
    · rintro ⟨hnone, hvoid, hcallable⟩
      rw [hnone]
      exact ⟨hnonempty, List.nodup_nil, List.nodup_nil, hvoid, fun _ => rfl, hcallable⟩

def handlerSteps : List Step :=
  [.cls ⟨["Net"], "Socket"⟩, .scalar .int, .cls ⟨["Net"], "Stream"⟩, .nullable]

def mixedCallable : List Step := [.scalar .mixed, .scalar .callable]

theorem ofType_ofSteps_iff_handler :
    ¬ Diluted handlerSteps ∧
      ofType .property (.property ⟨[], "Server"⟩ "peer") (.union (.ofSteps handlerSteps)) = [] ∧
    Diluted mixedCallable ∧ ¬ Admissible .property mixedCallable ∧
      ofType .property (.property ⟨[], "Server"⟩ "hook")
        (.union (.ofSteps mixedCallable)) ≠ [] := by
  have hpure : ¬ Diluted handlerSteps := fun h => absurd h.1 (by decide)
  have hadmissible : Admissible .property handlerSteps :=
    { nonempty := by decide
      void := by decide
      mixed := fun h => absurd h (by decide)
      folded := by decide +kernel
      identifiers := by decide +kernel
      callable := fun _ => by decide }
  have hdiluted : Diluted mixedCallable :=
    ⟨by decide, .callable, by decide, by decide, by decide⟩
  obtain ⟨hnot, hiff⟩ :=
    (ofType_ofSteps_iff .property (.property ⟨[], "Server"⟩ "hook") mixedCallable).2 hdiluted
  refine ⟨hpure, ?_, hdiluted, hnot, fun h => (hiff.mp h).2.2 rfl (by decide)⟩
  exact ((ofType_ofSteps_iff .property _ handlerSteps).1 hpure).mpr hadmissible

/-- Callables are no part of `mixed`, so the union has two members, and it is accepted. -/
theorem not_admissible_mixedCallable :
    ofType .parameter (.parameter (.function ⟨[], "f"⟩) "a")
        (.union (.ofSteps mixedCallable)) = [] ∧
      ¬ Admissible .parameter mixedCallable := by
  refine ⟨by decide +kernel, fun h => ?_⟩
  rcases h.mixed (by decide) (.scalar .callable) (by decide) with heq | heq | heq <;> contradiction

end UnionType

end ExtensionHeader
