import ExtensionHeader.Proofs.Construction
import ExtensionHeader.Proofs.Reading.Outline
import ExtensionHeader.Proofs.Reading.Stored

/-! Which defaults a type admits. Validation asks for the kind of a default by cases on the type, and
what it lets pass is in the mask of the type: for arguments, and in the lines that declare properties
as well. -/
namespace ExtensionHeader

open Header Reading

namespace DefaultValue

def kinds : List Scalar := [.null, .bool, .int, .float, .string, .array]

theorem kind_mem_kinds {v : DefaultValue} {kind : Scalar} (h : v.kind? = some kind) :
    kind ∈ kinds := by
  cases v <;> cases h <;> decide

theorem kind?_eq_none_iff {v : DefaultValue} :
    v.kind? = none ↔ ∃ cls name, v = .constant cls name := by
  cases v <;> simp [kind?]

end DefaultValue

theorem Scalar.contains_mask_iff {kind : Scalar} (h : kind ∈ DefaultValue.kinds) (own : Scalar) :
    own.mask.contains kind.mask = true ↔ own = .mixed ∨ own = kind := by
  have hall : ∀ kind ∈ DefaultValue.kinds, ∀ own ∈ all,
      own.mask.contains kind.mask = true ↔ own = .mixed ∨ own = kind := by decide
  exact hall kind h own (by cases own <;> decide)

theorem Scalar.not_contains_empty (kind : Scalar) :
    ¬ TypeMask.empty.contains kind.mask = true := by
  obtain ⟨i, hi⟩ := kind.exists_has_mask
  intro h
  have hempty := TypeMask.contains_iff.mp h i hi
  rw [TypeMask.has_empty] at hempty
  contradiction

namespace UnionType

variable {u : UnionType}

theorem Regular.contains_null (h : u.Regular) :
    u.mask.contains Scalar.null.mask = true ↔ u.isNullable = true := by
  show u.mask.contains (.ofCode .null) = true ↔ _
  rw [TypeMask.contains_ofCode, has_mask, and_iff_left rfl]
  exact or_iff_right_of_imp h.null

theorem contains_mask_iff {m : TypeMask} (hnull : m.has TypeCode.null.value = false) :
    u.mask.contains m = true ↔ u.scalarMask.contains m = true := by
  rw [TypeMask.contains_iff, TypeMask.contains_iff]
  apply forall_congr'
  intro i
  apply imp_congr_right
  intro hi
  have hne : i ≠ TypeCode.null.value := by
    rintro rfl
    rw [hnull] at hi
    contradiction
  unfold scalarMask TypeMask.null
  rw [has_mask, TypeMask.has_difference, TypeMask.has_ofCode, decide_eq_false hne]
  simp [hne]

end UnionType

namespace DeclaredType

def Holds (t : DeclaredType) (v : DefaultValue) : Prop :=
  ∃ kind, v.kind? = some kind ∧ t.mask.contains kind.mask = true

variable {t : DeclaredType} {v : DefaultValue} {kind : Scalar}

theorem permits_scalar_iff (own : Scalar) (h : v.kind? = some kind) :
    (scalar own).permits v = true ↔ own.mask.contains kind.mask = true := by
  rw [Scalar.contains_mask_iff (DefaultValue.kind_mem_kinds h)]
  unfold permits
  rw [h]
  cases own <;> simp

theorem permits_cls_iff (name : QualifiedName) (h : v.kind? = some kind) :
    (cls name).permits v = true ↔ TypeMask.empty.contains kind.mask = true := by
  unfold permits
  rw [h]
  exact iff_of_false Bool.false_ne_true kind.not_contains_empty

theorem permits_union_iff {u : UnionType} (hu : u.Regular) (h : v.kind? = some kind) :
    (union u).permits v = true ↔ u.mask.contains kind.mask = true := by
  unfold permits
  rw [h]
  dsimp only
  split
  · rename_i hnull
    rw [hnull, hu.contains_null]
  · rename_i hne
    have hnull : ∀ kind ∈ DefaultValue.kinds, kind ≠ .null →
        kind.mask.has TypeCode.null.value = false := by decide
    exact (UnionType.contains_mask_iff
      (hnull kind (DefaultValue.kind_mem_kinds h) hne)).symm

/-- Class constants are permitted, and other values if the mask has all values of their kind. -/
theorem IsBuilt.permits_iff (ht : t.IsBuilt) (v : DefaultValue) :
    t.permits v = true ↔ (∃ cls name, v = .constant cls name) ∨ t.Holds v := by
  rw [← DefaultValue.kind?_eq_none_iff]
  unfold Holds
  cases hv : v.kind? with
  | none =>
    unfold permits
    rw [hv]
    simp
  | some kind =>
    have hpermits : t.permits v = true ↔ t.mask.contains kind.mask = true := by
      cases t with
      | scalar own => exact permits_scalar_iff own hv
      | cls name => exact permits_cls_iff name hv
      | union u => exact permits_union_iff ht.regular hv
    rw [hpermits]
    simp

end DeclaredType

namespace Validation

theorem ofDefault_eq_nil_iff {location : Location} {t : DeclaredType} {v : DefaultValue} :
    ofDefault location (some t) (some v) = [] ↔ t.permits v = true := by
  unfold ofDefault
  rw [Diagnostic.when_eq_nil_iff, Bool.not_eq_false']

theorem permits_of_ofSignature {location : Location} {s : Signature}
    (h : ofSignature location s = []) {p : Parameter} (hp : p ∈ s.parameters) {t : DeclaredType}
    (ht : p.type? = some t) {v : DefaultValue} (hv : p.default? = some v) :
    t.permits v = true := by
  obtain ⟨earlier, hparameter⟩ :=
    Sequence.exists_eq_nil_of_mem (List.append_eq_nil_iff.mp h).1 hp
  unfold ofParameter at hparameter
  rw [List.append_eq_nil_iff, ht, hv, ofDefault_eq_nil_iff] at hparameter
  exact hparameter.2

end Validation

namespace Property.Accepted

variable {owner : QualifiedName} {p : Property} {t : DeclaredType} {v : DefaultValue}

theorem permits (h : p.Accepted owner) (ht : p.type? = some t) (hv : p.default? = some v) :
    t.permits v = true := by
  have hdefault := h.default
  have hclass := h.ne_constant
  unfold Validation.ofPropertyDefault at hdefault
  rw [hv] at hdefault hclass
  cases v with
  | constant cls name => exact absurd rfl (hclass cls name)
  | _ =>
    rw [ht] at hdefault
    exact Validation.ofDefault_eq_nil_iff.mp hdefault

theorem holds (h : p.Accepted owner) (ht : p.type? = some t) (hbuilt : t.IsBuilt)
    (hv : p.default? = some v) : t.Holds v := by
  rcases (hbuilt.permits_iff v).mp (h.permits ht hv) with ⟨cls, name, rfl⟩ | hholds
  · exact absurd hv (h.ne_constant cls name)
  · exact hholds

end Property.Accepted

theorem Property.contents_eq {p : Property} {t : DeclaredType} (ht : p.type? = some t)
    (hbuilt : t.IsBuilt) {v : DefaultValue} (hv : p.default? = some v) {kind : Scalar}
    (hkind : v.kind? = some kind) (hmask : t.mask.contains kind.mask = true) :
    p.contents =
      [.value (Variable.value p.name) kind, .mask (Variable.type p.name) t.mask] := by
  have hread : Reading.mask? t.mask.expression.toList = some t.mask :=
    TypeMask.mask?_expression hbuilt.named_mask
  have hvalue : p.value? = some (.value (Variable.value p.name) kind) := by
    unfold value?
    simp only [hv, hkind, Option.map_some]
  have hwritten : p.mask? = some (.mask (Variable.type p.name) t.mask) := by
    unfold mask?
    rw [ht]
    cases t with
    | cls name => exact absurd hmask kind.not_contains_empty
    | _ => simp only [hread, Option.map_some]
  unfold contents
  rw [hvalue, hwritten]
  rfl

/-- A type permits class constants and the values whose kind is in its mask. In an extension without
errors, the routine of a class therefore declares a property with a value whose kind is in the mask
that is written for its type, and the defaults of parameters are constants or in their masks. -/
theorem Extension.defaults_fit_types :
    (∀ t : DeclaredType, t.Constructible → ∀ v,
      t.permits v = true ↔ (∃ cls name, v = .constant cls name) ∨ t.Holds v) ∧
    ∀ (e : Extension) (mode : Validation.Mode), (e.validate mode).errors = [] →
      (∀ c ∈ e.classes, ∀ p ∈ c.properties, ∀ t v, p.type? = some t → t.Constructible →
        p.default? = some v →
        ∃ kind, v.kind? = some kind ∧ t.mask.contains kind.mask = true ∧
          (∃ own, declareProperty e.interner p = .ok own ∧
            p.IsDeclaredWith [.value (Variable.value p.name) kind,
              .mask (Variable.type p.name) t.mask] (own.map (·.text))) ∧
          ∀ r, Routine.ofClass e.interner c = .ok r →
            p.IsDeclaredWith [.value (Variable.value p.name) kind,
              .mask (Variable.type p.name) t.mask] (r.lines.map (·.text))) ∧
      ∀ d ∈ declarations e, ∀ p ∈ d.2.parameters, ∀ t v, p.type? = some t → t.Constructible →
        p.default? = some v → (∀ cls name, v ≠ .constant cls name) → t.Holds v := by
  refine ⟨fun t ht v => ht.isBuilt.permits_iff v, fun e mode herrors => ⟨?_, ?_⟩⟩
  · have haccepted := Validation.accepted_of_errors herrors
    intro c hc p hp t v ht hbuilt hv
    have hclass := haccepted.cls c hc
    have hproperty := hclass.property p hp
    obtain ⟨kind, hkind, hmask⟩ := hproperty.holds ht hbuilt.isBuilt hv
    have hnames : ∀ q ∈ c.properties, IsWord q.name := fun q hq =>
      isWord_of_isValid (hclass.property q hq).name
    obtain ⟨own, hown⟩ := declareProperty_ok (haccepted.expressible hc hp)
    refine ⟨kind, hkind, hmask, ⟨own, hown, ?_⟩, fun r hr => ?_⟩
    all_goals rw [← Property.contents_eq ht hbuilt.isBuilt hv hkind hmask]
    · exact Property.isDeclaredWith_declareProperty (hnames p hp) hown
    · exact Property.isDeclaredWith_ofClass hnames hclass.properties hp hr
  · intro d hd p hp t v ht hbuilt hv hconstant
    obtain ⟨location, hnil, -⟩ :=
      Validation.ofSignature_of_mem (Validation.errors_eq_nil herrors).1 hd
    have hpermits := Validation.permits_of_ofSignature hnil hp ht hv
    rcases (hbuilt.isBuilt.permits_iff v).mp hpermits with ⟨cls, name, heq⟩ | hholds
    · exact absurd heq (hconstant cls name)
    · exact hholds

def limit : Property where
  name := "limit"
  type? := some (DeclaredType.scalar .int).nullable
  default? := some .null

def hard : Parameter where
  name := "hard"
  type? := some (.scalar .bool)
  default? := some (.bool false)

def settings : Extension where
  path := ["App"]
  functions := [{ name := ⟨["App"], "reset"⟩, signature := { parameters := [hard] } }]
  classes := [{
    name := ⟨["App"], "Settings"⟩
    properties := [
      { name := "title", type? := some (.scalar .string), default? := some (.string "all") },
      limit] }]

theorem Extension.defaults_fit_types_settings :
    (settings.validate .lenient).errors = [] ∧
    (∃ c ∈ settings.classes, limit ∈ c.properties ∧
      ∃ r, Routine.ofClass settings.interner c = .ok r ∧
        limit.IsDeclaredWith [.value "property_limit_default_value" .null,
          .mask "property_limit_type" ⟨0x12⟩] (r.lines.map (·.text))) ∧
    (DeclaredType.scalar .bool).Holds (.bool false) := by
  have herrors : (settings.validate .lenient).errors = [] := by decide +kernel
  obtain ⟨-, hextension⟩ := Extension.defaults_fit_types
  obtain ⟨hproperties, hparameters⟩ := hextension settings .lenient herrors
  refine ⟨herrors, ?_, ?_⟩
  · obtain ⟨c, hc, hlimit⟩ : ∃ c ∈ settings.classes, limit ∈ c.properties :=
      ⟨_, List.mem_cons_self, by decide⟩
    obtain ⟨r, hr⟩ := ofClass_of_isOk_routines
      (by decide +kernel : (routines settings.interner settings.classes).isOk = true) hc
    obtain ⟨kind, hkind, -, -, hdeclared⟩ :=
      hproperties c hc limit hlimit _ _ rfl (.nullable (.scalar .int)) rfl
    cases hkind
    exact ⟨c, hc, hlimit, r, hr, hdeclared r hr⟩
  · obtain ⟨d, hd, hhard⟩ : ∃ d ∈ declarations settings, hard ∈ d.2.parameters :=
      ⟨_, List.mem_cons_self, by decide⟩
    exact hparameters d hd hard hhard _ _ rfl (.scalar .bool) rfl (by simp)

end ExtensionHeader
