import ExtensionHeader.Proofs.Reading.Mask
import ExtensionHeader.Proofs.Unions

/-! What types are built from. A union has the classes of its steps in order, and of the other steps
it keeps the values that they add, so it does not show in which order or how often they came. The
masks that arise in this way are those whose expressions name all of their values. -/
namespace ExtensionHeader

namespace TypeMask

def unionAll (masks : List TypeMask) : TypeMask := masks.foldr (· ∪ ·) .empty

theorem has_unionAll (masks : List TypeMask) (i : Nat) :
    (unionAll masks).has i = true ↔ ∃ m ∈ masks, m.has i = true := by
  induction masks with
  | nil => simp [unionAll]
  | cons m rest ih =>
    show (m ∪ unionAll rest).has i = true ↔ _
    simp [ih]

/-- The text lists constants of the engine, none of them twice, that make up the mask. -/
structure IsListed (m : TypeMask) (text : String) (names : List String) : Prop where
  nonempty : names ≠ []
  nodup : names.Nodup
  constants : ∀ name ∈ names, "MAY_BE_".toList <+: name.toList
  text : text = "|".intercalate names
  values : Reading.maskOf? (names.map String.toList) = some m

theorem Named.isListed {m : TypeMask} (h : m.Named) (hempty : m ≠ .empty) :
    m.IsListed m.expression (decompose names m) where
  nonempty := h.decompose_ne_nil fun h => hempty (isEmpty_iff.mp h)
  nodup := (decompose_sublist names m).nodup (by decide)
  constants := by
    have hnames : ∀ name ∈ names.map Prod.snd, "MAY_BE_".toList <+: name.toList := by decide
    exact fun name hname => hnames name ((decompose_sublist names m).subset hname)
  text := if_neg fun h => hempty (isEmpty_iff.mp h)
  values := h.maskOf?_names

end TypeMask

namespace UnionType

def Step.scalar? : Step → Option Scalar
  | scalar kind => some kind
  | _ => none

/-- A step adds null: on its own, as a scalar type, or with all other values. -/
def AddsNull (steps : List Step) : Prop :=
  .nullable ∈ steps ∨ .scalar .null ∈ steps ∨ .scalar .mixed ∈ steps

instance (steps : List Step) : Decidable (AddsNull steps) :=
  inferInstanceAs (Decidable (_ ∨ _ ∨ _))

section steps

variable (steps : List Step)

theorem has_unionAll_masks (i : Nat) :
    (TypeMask.unionAll ((steps.filterMap Step.scalar?).map Scalar.mask)).has i = true ↔
      ∃ kind, .scalar kind ∈ steps ∧ kind.mask.has i = true := by
  rw [TypeMask.has_unionAll]
  constructor
  · rintro ⟨m, hm, hi⟩
    obtain ⟨kind, hkind, rfl⟩ := List.mem_map.mp hm
    obtain ⟨step, hstep, heq⟩ := List.mem_filterMap.mp hkind
    cases step with
    | scalar other =>
      cases heq
      exact ⟨kind, hstep, hi⟩
    | _ => contradiction
  · rintro ⟨kind, hkind, hi⟩
    exact ⟨_, List.mem_map_of_mem (List.mem_filterMap.mpr ⟨_, hkind, rfl⟩), hi⟩

theorem has_mask_ofSteps_iff (i : Nat) :
    (ofSteps steps).mask.has i = true ↔
      (∃ kind, .scalar kind ∈ steps ∧ kind.mask.has i = true) ∨
        AddsNull steps ∧ i = TypeCode.null.value := by
  rw [has_mask, has_scalars_ofSteps, isNullable_ofSteps]
  constructor
  · rintro (⟨kind, hkind, -, hi⟩ | hnull)
    · exact .inl ⟨kind, hkind, hi⟩
    · exact .inr hnull
  · rintro (⟨kind, hkind, hi⟩ | hnull)
    · -- Null is a scalar type, but the union keeps it as the flag.
      by_cases hkind' : kind = .null
      · subst hkind'
        have hi : i = TypeCode.null.value :=
          of_decide_eq_true ((TypeMask.has_ofCode .null i).symm.trans hi)
        exact .inr ⟨.inr (.inl hkind), hi⟩
      · exact .inl ⟨kind, hkind, hkind', hi⟩
    · exact .inr hnull

theorem mask_ofSteps :
    (ofSteps steps).mask = .unionAll ((steps.filterMap Step.scalar?).map Scalar.mask) ∪
      if AddsNull steps then .null else .empty := by
  apply TypeMask.ext_has
  intro i
  rw [Bool.eq_iff_iff, has_mask_ofSteps_iff, TypeMask.has_union, Bool.or_eq_true,
    has_unionAll_masks]
  unfold TypeMask.null
  split <;> simp [*]

theorem contains_null_ofSteps :
    (ofSteps steps).mask.contains .null = true ↔ AddsNull steps := by
  unfold TypeMask.null
  rw [TypeMask.contains_ofCode, has_mask, isNullable_ofSteps, and_iff_left rfl]
  refine or_iff_right_of_imp fun h => ?_
  exact (isNullable_ofSteps steps).mp ((regular_ofSteps steps).null h)

end steps

/-- The steps that are seen in a union: the classes in order, which scalar types there are beside
null, and whether there is null. -/
structure Alike (steps others : List Step) : Prop where
  classes : steps.filterMap Step.cls? = others.filterMap Step.cls?
  scalars : ∀ kind, kind ≠ .null → (.scalar kind ∈ steps ↔ .scalar kind ∈ others)
  null : AddsNull steps ↔ AddsNull others

theorem Alike.ofSteps_eq {steps others : List Step} (h : Alike steps others) :
    ofSteps steps = ofSteps others := by
  have hclasses : (ofSteps steps).classes = (ofSteps others).classes := by
    rw [classes_ofSteps, classes_ofSteps, h.classes]
  have hscalars : (ofSteps steps).scalars = (ofSteps others).scalars := by
    apply TypeMask.ext_has
    intro i
    rw [Bool.eq_iff_iff, has_scalars_ofSteps, has_scalars_ofSteps]
    constructor
    · rintro ⟨kind, hkind, hnull, hi⟩
      exact ⟨kind, (h.scalars kind hnull).mp hkind, hnull, hi⟩
    · rintro ⟨kind, hkind, hnull, hi⟩
      exact ⟨kind, (h.scalars kind hnull).mpr hkind, hnull, hi⟩
  have hnullable : (ofSteps steps).isNullable = (ofSteps others).isNullable := by
    rw [Bool.eq_iff_iff, isNullable_ofSteps, isNullable_ofSteps]
    exact h.null
  calc
    ofSteps steps = ⟨(ofSteps steps).classes, (ofSteps steps).scalars,
      (ofSteps steps).isNullable⟩ := rfl
    _ = ofSteps others := by rw [hclasses, hscalars, hnullable]

end UnionType

namespace DeclaredType

/-- What can be built: scalar types, classes, unions in steps, and what is built with null. -/
inductive Constructible : DeclaredType → Prop
  | scalar (kind : Scalar) : Constructible (.scalar kind)
  | cls (name : QualifiedName) : Constructible (.cls name)
  | union (steps : List UnionType.Step) : Constructible (.union (.ofSteps steps))
  | nullable {t : DeclaredType} : Constructible t → Constructible t.nullable

open UnionType in
theorem IsBuilt.nullable {t : DeclaredType} (h : t.IsBuilt) : t.nullable.IsBuilt := by
  cases t with
  | scalar kind => exact isBuilt_ofSteps [.scalar kind, .nullable]
  | cls name => exact isBuilt_ofSteps [.cls name, .nullable]
  | union u =>
    obtain ⟨steps, rfl⟩ := h u rfl
    have hlast : (ofSteps steps).nullable = ofSteps (steps ++ [.nullable]) :=
      (ofSteps_append steps .nullable).symm
    change (union (ofSteps steps).nullable).IsBuilt
    rw [hlast]
    exact isBuilt_ofSteps _

theorem Constructible.isBuilt {t : DeclaredType} (h : t.Constructible) : t.IsBuilt := by
  induction h with
  | scalar kind => exact isBuilt_scalar kind
  | cls name => exact isBuilt_cls name
  | union steps => exact isBuilt_ofSteps steps
  | nullable _ ih => exact ih.nullable

theorem IsBuilt.named_mask {t : DeclaredType} (h : t.IsBuilt) : t.mask.Named := by
  cases t with
  | scalar kind => exact kind.named_mask
  | cls name => exact TypeMask.named_empty
  | union u => exact h.regular.named_mask

/-- A union has the classes of its steps in order, and its mask has what the scalar types of the
steps have, with null exactly if a step adds null; steps that agree in these give one union, in
whatever order and however often they come. Every type that can be built has a mask whose expression
is a zero if the mask is empty, and otherwise lists distinct constants that make up the mask. -/
theorem steps_make_types :
    (∀ steps : List UnionType.Step,
      (UnionType.ofSteps steps).classes = steps.filterMap UnionType.Step.cls? ∧
      (UnionType.ofSteps steps).mask =
        .unionAll ((steps.filterMap UnionType.Step.scalar?).map Scalar.mask) ∪
          (if UnionType.AddsNull steps then .null else .empty) ∧
      ((UnionType.ofSteps steps).mask.contains .null = true ↔ UnionType.AddsNull steps) ∧
      ∀ others, UnionType.Alike steps others →
        UnionType.ofSteps steps = UnionType.ofSteps others) ∧
    ∀ t : DeclaredType, t.Constructible →
      (t.mask = .empty ∧ t.mask.expression = "0") ∨
        ∃ names, t.mask.IsListed t.mask.expression names := by
  refine ⟨fun steps => ?_, fun t ht => ?_⟩
  · exact ⟨UnionType.classes_ofSteps steps, UnionType.mask_ofSteps steps,
      UnionType.contains_null_ofSteps steps, fun _ h => h.ofSteps_eq⟩
  · by_cases hempty : t.mask = .empty
    · rw [hempty]
      exact .inl ⟨rfl, rfl⟩
    · exact .inr ⟨_, ht.isBuilt.named_mask.isListed hempty⟩

def outcomeSteps : List UnionType.Step :=
  [.cls ⟨[], "Entry"⟩, .scalar .int, .nullable, .scalar .bool, .scalar .int]

def outcomeStepsReordered : List UnionType.Step :=
  [.scalar .bool, .scalar .null, .scalar .int, .cls ⟨[], "Entry"⟩]

theorem steps_make_types_outcome :
    UnionType.Alike outcomeSteps outcomeStepsReordered ∧
      UnionType.ofSteps outcomeSteps = UnionType.ofSteps outcomeStepsReordered ∧
      (union (.ofSteps outcomeSteps)).Constructible ∧
      ∃ names, TypeMask.IsListed ⟨0x1e⟩ "MAY_BE_LONG|MAY_BE_BOOL|MAY_BE_NULL" names := by
  have halike : UnionType.Alike outcomeSteps outcomeStepsReordered :=
    { classes := by decide
      scalars := by
        intro kind hkind
        cases kind with
        | null => contradiction
        | _ => decide
      null := by decide }
  have hbuilt : (union (.ofSteps outcomeSteps)).Constructible := .union outcomeSteps
  obtain ⟨hsteps, htypes⟩ := steps_make_types
  refine ⟨halike, (hsteps outcomeSteps).2.2.2 _ halike, hbuilt, ?_⟩
  rcases htypes _ hbuilt with h | h
  · exact absurd h.1 (by decide)
  · exact h

end DeclaredType

end ExtensionHeader
