import ExtensionHeader.Header.Section
import ExtensionHeader.Proofs.Acceptance
import ExtensionHeader.Proofs.Routine

/-! Which failures of emission are left for an extension without errors. Every property can be
declared, so only the ownership of a routine can fail, and it does when two handles of one class
have the same name. -/
namespace ExtensionHeader

open Header

def Class.handles (c : Class) : List String := c.properties.flatMap (·.handles)

theorem Reference.mem_ofClass {c : Class} {p : Property} {q : QualifiedName}
    (hp : p ∈ c.properties) (hq : q ∈ p.classes) :
    ⟨q, .property c.name p.name⟩ ∈ Reference.ofClass c := by
  unfold Reference.ofClass
  apply List.mem_append_right
  rw [List.mem_flatMap]
  refine ⟨p, hp, ?_⟩
  unfold Reference.ofValue
  exact List.mem_map_of_mem (List.mem_append_left _ hq)

theorem Extension.exists_symbol {e : Extension} {c : Class} {p : Property} {q : QualifiedName}
    (hc : c ∈ e.classes) (hp : p ∈ c.properties) (hq : q ∈ p.classes) :
    ∃ symbol, e.interner.get? q.display = some symbol := by
  have href : ⟨q, .property c.name p.name⟩ ∈ e.references := by
    unfold Extension.references
    exact List.mem_append_right _ (List.mem_flatMap.mpr ⟨c, hc, Reference.mem_ofClass hp hq⟩)
  have htext : q.display ∈ e.internedTexts := by
    unfold Extension.internedTexts
    exact List.mem_append_right _ (List.mem_map.mpr ⟨_, href, rfl⟩)
  rw [← Option.isSome_iff_exists, Interner.isSome_get?_iff]
  exact (Interner.mem_strings_ofList _ _).mpr htext

namespace Property.Accepted

variable {owner : QualifiedName} {p : Property}

theorem ne_constant (h : p.Accepted owner) (cls : QualifiedName) (name : String) :
    p.default? ≠ some (.constant cls name) := by
  intro hd
  have hdefault := h.default
  simp [Validation.ofPropertyDefault, hd] at hdefault

theorem ofUnion_eq_nil (h : p.Accepted owner) {u : UnionType} (ht : p.type? = some (.union u)) :
    Validation.ofUnion .property (.property owner p.name) u = [] := by
  have htype := h.type
  simpa [Validation.ofOptionalType, ht, Validation.ofType] using htype

theorem isEmpty_eq_false (h : p.Accepted owner) {u : UnionType}
    (ht : p.type? = some (.union u)) : u.isEmpty = false := by
  have hunion := h.ofUnion_eq_nil ht
  unfold Validation.ofUnion at hunion
  split at hunion
  · contradiction
  · rename_i hempty
    simpa using hempty

end Property.Accepted

theorem Extension.Accepted.expressible {e : Extension} (h : e.Accepted) {c : Class}
    (hc : c ∈ e.classes) {p : Property} (hp : p ∈ c.properties) : p.Expressible e.interner where
  default := ((h.cls c hc).property p hp).ne_constant
  classes := fun _ hq => Extension.exists_symbol hc hp hq
  type := fun _ ht => ((h.cls c hc).property p hp).isEmpty_eq_false ht

namespace Header

theorem ofClass_eq {interner : Interner} {c : Class} {statements : List Statement}
    (h : declareProperties interner c.properties = .ok statements) :
    Routine.ofClass interner c =
      match Ownership.check (c.properties.flatMap (·.events)) with
      | .ok () => .ok
        { name := Identifier.registration c.name
          parameters := Sequence.firstBy (·.folded) c.supertypes
          body := registerClass c ++ statements ++ [.returnEntry] }
      | .error imbalance => .error (.unbalanced (Identifier.registration c.name) imbalance) := by
  have hevents : (registerClass c ++ statements ++ [Statement.returnEntry]).flatMap (·.events) =
      c.properties.flatMap (·.events) := by
    rw [List.flatMap_append, List.flatMap_append, events_registerClass,
      events_declareProperties h, List.nil_append]
    exact List.append_nil _
  unfold Routine.ofClass
  simp only [h, bind, Except.bind, Routine.events, hevents]
  cases Ownership.check (c.properties.flatMap (·.events)) <;> rfl

theorem ofClass_cases {interner : Interner} {c : Class}
    (h : ∀ p ∈ c.properties, p.Expressible interner) :
    (c.handles.Nodup ∧ ∃ r, Routine.ofClass interner c = .ok r) ∨
      (¬ c.handles.Nodup ∧ ∃ imbalance, Routine.ofClass interner c =
        .error (.unbalanced (Identifier.registration c.name) imbalance)) := by
  obtain ⟨statements, hs⟩ := declareProperties_ok h
  have hcheck := Ownership.check_properties_iff c.properties
  rw [ofClass_eq hs]
  cases ho : Ownership.check (c.properties.flatMap (·.events)) with
  | ok => exact .inl ⟨hcheck.mp ho, _, rfl⟩
  | error imbalance =>
    refine .inr ⟨fun hn => ?_, imbalance, rfl⟩
    rw [hcheck.mpr hn] at ho
    contradiction

theorem routines_eq_error {interner : Interner} {classes : List Class} {defect : Defect}
    (h : routines interner classes = .error defect) :
    ∃ c ∈ classes, Routine.ofClass interner c = .error defect := by
  induction classes with
  | nil => simp [routines] at h
  | cons c rest ih =>
    simp only [routines, bind_eq_error_iff] at h
    rcases h with h | ⟨first, -, h | ⟨others, -, h⟩⟩
    · exact ⟨c, List.mem_cons_self, h⟩
    · obtain ⟨c', hc', hd⟩ := ih h
      exact ⟨c', List.mem_cons_of_mem c hc', hd⟩
    · contradiction

theorem routines_eq_ok_iff {interner : Interner} {classes : List Class} {rs : List Routine} :
    routines interner classes = .ok rs ↔
      List.Forall₂ (Routine.ofClass interner · = .ok ·) classes rs := by
  induction classes generalizing rs with
  | nil =>
    rw [List.forall₂_nil_left_iff]
    exact ⟨fun h => (Except.ok.inj h).symm, fun h => congrArg Except.ok h.symm⟩
  | cons c rest ih =>
    simp only [routines, bind_eq_ok_iff, ih, List.forall₂_cons_left_iff]
    constructor
    · rintro ⟨first, hfirst, others, hothers, hrs⟩
      exact ⟨first, others, hfirst, hothers, (Except.ok.inj hrs).symm⟩
    · rintro ⟨first, others, hfirst, hothers, rfl⟩
      exact ⟨first, hfirst, others, hothers, rfl⟩

theorem mem_routines {interner : Interner} {classes : List Class} {rs : List Routine}
    (h : routines interner classes = .ok rs) {c : Class} (hc : c ∈ classes) :
    ∃ r ∈ rs, Routine.ofClass interner c = .ok r :=
  Sequence.exists_right_of_forall₂ (routines_eq_ok_iff.mp h) hc

theorem exists_class_of_mem_routines {interner : Interner} {classes : List Class}
    {rs : List Routine} (h : routines interner classes = .ok rs) {r : Routine} (hr : r ∈ rs) :
    ∃ c ∈ classes, Routine.ofClass interner c = .ok r :=
  Sequence.exists_left_of_forall₂ (routines_eq_ok_iff.mp h) hr

theorem ofClass_ok_of_routines {interner : Interner} {classes : List Class} {rs : List Routine}
    (h : routines interner classes = .ok rs) :
    ∀ c ∈ classes, ∃ r, Routine.ofClass interner c = .ok r := by
  intro c hc
  obtain ⟨r, -, hr⟩ := mem_routines h hc
  exact ⟨r, hr⟩

def leading (hasBanner : Bool) : List Section := if hasBanner then [.banner] else []

def forward : List Handler → List Section
  | [] => []
  | handlers => [.forward handlers]

def trailing (e : Extension) (routines : List Routine) : List Section :=
  forward (handlers e) ++ (functionTables e).map .table ++
    e.classes.map (fun c => .table (EntryTable.ofClass c)) ++ routines.map .routine

theorem sections_eq (options : Options) (e : Extension) :
    sections options e = (routines e.interner e.classes).map fun routines =>
      leading options.hasBanner ++ (argInfos options.sharesArgInfo e).map .argInfo ++
        trailing e routines := by
  unfold sections tables leading trailing
  congr 1
  funext routines
  simp only [List.append_assoc]
  cases handlers e <;> rfl

theorem emit_eq_error_iff (options : Options) (e : Extension) (defect : Defect) :
    emit options e = .error defect ↔ routines e.interner e.classes = .error defect := by
  unfold emit sections
  cases routines e.interner e.classes <;> simp [Except.map]

theorem routines_ok {interner : Interner} {classes : List Class}
    (h : ∀ c ∈ classes, ∃ r, Routine.ofClass interner c = .ok r) :
    ∃ rs, routines interner classes = .ok rs := by
  cases hr : routines interner classes with
  | ok rs => exact ⟨rs, rfl⟩
  | error defect =>
    obtain ⟨c, hc, herror⟩ := routines_eq_error hr
    obtain ⟨r, hok⟩ := h c hc
    rw [herror] at hok
    contradiction

theorem emit_ok_iff (options : Options) (e : Extension) :
    (∃ text, emit options e = .ok text) ↔
      ∀ c ∈ e.classes, ∃ r, Routine.ofClass e.interner c = .ok r := by
  have hemit : (∃ text, emit options e = .ok text) ↔
      ∃ rs, routines e.interner e.classes = .ok rs := by
    unfold emit sections
    cases routines e.interner e.classes <;> simp [Except.map]
  rw [hemit]
  constructor
  · rintro ⟨rs, hrs⟩
    exact ofClass_ok_of_routines hrs
  · exact routines_ok

theorem unbalanced_of_emit_eq_error {options : Options} {e : Extension} (h : e.Accepted)
    {defect : Defect} (hemit : emit options e = .error defect) :
    ∃ c ∈ e.classes, ∃ imbalance,
      defect = .unbalanced (Identifier.registration c.name) imbalance := by
  rw [emit_eq_error_iff] at hemit
  obtain ⟨c, hc, hr⟩ := routines_eq_error hemit
  rcases ofClass_cases fun p hp => h.expressible hc hp with ⟨-, r, hok⟩ | ⟨-, imbalance, herror⟩
  · rw [hok] at hr
    contradiction
  · rw [herror] at hr
    exact ⟨c, hc, imbalance, (Except.error.inj hr).symm⟩

/-- The failures that declarations without errors leave are those of ownership: the other refusals
concern defaults, unions and class names that validation and interning take care of. -/
theorem emit_ne_unvalidated {e : Extension} {mode : Validation.Mode}
    (h : (e.validate mode).errors = []) :
    (∀ options refusal, emit options e ≠ .error (.unvalidated refusal)) ∧
      ∀ c ∈ e.classes, ∀ p ∈ c.properties,
        (∀ cls name, p.default? ≠ some (.constant cls name)) ∧
        (∀ u, p.type? = some (.union u) → u.isEmpty = false) ∧
        ∀ q ∈ p.classes, ∃ symbol, e.interner.get? q.display = some symbol ∧
          (e.interner.size ≤ UInt32.size → e.interner.resolve? symbol = some q.display) := by
  have accepted := Validation.accepted_of_errors h
  constructor
  · intro options refusal hemit
    obtain ⟨c, -, imbalance, hdefect⟩ := unbalanced_of_emit_eq_error accepted hemit
    contradiction
  · intro c hc p hp
    have expressible := accepted.expressible hc hp
    refine ⟨expressible.default, expressible.type, fun q hq => ?_⟩
    obtain ⟨symbol, hs⟩ := expressible.classes q hq
    exact ⟨symbol, hs, Interner.resolve?_of_get? hs⟩

def catalogue : Extension where
  path := ["Shop"]
  classes := [{
    name := ⟨["Shop"], "Catalogue"⟩
    properties := [
      { name := "entries"
        type? := some (.union {
          classes := [⟨["Shop"], "Entry"⟩, ⟨[], "Entry"⟩], scalars := .ofCode .array,
          isNullable := true })
        default? := some .emptyArray },
      { name := "title", type? := some (.scalar .string), default? := some (.string "all") }] }]

theorem emit_catalogue_ne_unvalidated :
    (catalogue.validate .lenient).errors = [] ∧
      ∀ options refusal, emit options catalogue ≠ .error (.unvalidated refusal) := by
  have h : (catalogue.validate .lenient).errors = [] := by decide +kernel
  exact ⟨h, (emit_ne_unvalidated h).1⟩

end Header

end ExtensionHeader
