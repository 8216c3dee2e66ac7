import ExtensionHeader.Proofs.Collision
import ExtensionHeader.Proofs.Generation
import ExtensionHeader.Proofs.Statements

/-! The class handles of a registration routine. The parameters of a routine are distinct, since
validation compares the handles of all supertypes of a class. A supertype that is listed twice, in
spellings that differ in case, is one parameter with the first spelling, but the body of the routine
uses both. -/
namespace ExtensionHeader

open Header

/-- Supertypes that have one name, ASCII case aside, have one identifier. -/
def Class.SpeltAlike (c : Class) : Prop :=
  ∀ q ∈ c.supertypes, ∀ r ∈ c.supertypes, q.folded = r.folded →
    Identifier.ofName q = Identifier.ofName r

namespace Header

def Routine.uses (r : Routine) : List QualifiedName := r.body.flatMap (·.uses)

theorem Statement.text_of_uses {s : Statement} (h : s.uses ≠ []) :
    ∃ front, s.text = front ++ ", ".intercalate (s.uses.map Identifier.classHandle) ++ ");" := by
  cases s with
  | register parent? =>
    cases parent? with
    | none => exact absurd rfl h
    | some q =>
      refine ⟨"class_entry = zend_register_internal_class_ex(&ce, ", ?_⟩
      simp only [uses, Option.toList_some, List.map_singleton, String.intercalate_singleton]
      rfl
  | implement interfaces =>
    have hhandles : interfaces.map Identifier.classHandle ≠ [] := by simpa [uses] using h
    have htext : (implement interfaces).text = call "zend_class_implements"
        (["class_entry", toString interfaces.length] ++
          interfaces.map Identifier.classHandle) ++ ";" := rfl
    have hclose : ");" = ")" ++ ";" := by decide
    refine ⟨"zend_class_implements" ++ "(" ++ ", ".intercalate ["class_entry",
      toString interfaces.length] ++ ", ", ?_⟩
    rw [htext, hclose]
    unfold call
    rw [String.intercalate_append_of_ne_nil (by simp) hhandles]
    simp only [uses, String.append_assoc]
  | _ => exact absurd rfl h

theorem uses_registerClass (c : Class) : (registerClass c).flatMap (·.uses) = c.supertypes := by
  have hflags : ∀ flags : AccessFlags,
      (if flags.isEmpty then [] else [Statement.addFlags flags]).flatMap (·.uses) = [] := by
    intro flags
    split <;> rfl
  have hinterfaces : (if c.interfaces.isEmpty then [] else
      [Statement.implement c.interfaces]).flatMap (·.uses) = c.interfaces := by
    cases c.interfaces with
    | nil => rfl
    | cons first rest => simp [Statement.uses]
  unfold registerClass Class.supertypes
  simp only [List.flatMap_append, hflags, hinterfaces]
  simp [Statement.uses]

theorem Statement.IsFor.uses_eq_nil {p : Property} {s : Statement} (h : s.IsFor p) :
    s.uses = [] := by
  cases h <;> rfl

theorem uses_ofClass {interner : Interner} {c : Class} {r : Routine}
    (h : Routine.ofClass interner c = .ok r) : r.uses = c.supertypes := by
  obtain ⟨statements, hs, -, rfl⟩ := ofClass_eq_ok h
  have hproperties : statements.flatMap (·.uses) = [] := by
    rw [List.flatMap_eq_nil_iff]
    intro s hmem
    obtain ⟨p, -, hfor⟩ := isFor_declareProperties hs s hmem
    exact hfor.uses_eq_nil
  simp only [Routine.uses, List.flatMap_append, uses_registerClass, hproperties]
  simp [Statement.uses]

end Header

theorem Identifier.classHandle_inj {q r : QualifiedName}
    (h : classHandle q = classHandle r) : ofName q = ofName r :=
  (String.append_right_inj "class_entry_").mp h

section handles

variable {e : Extension} (hcollisions : Validation.collisions e = []) {c : Class}
  (hc : c ∈ e.classes)

include hcollisions hc

theorem Class.folded_eq_of_ofName_eq {q r : QualifiedName} (hq : q ∈ c.supertypes)
    (hr : r ∈ c.supertypes) (h : Identifier.ofName q = Identifier.ofName r) :
    q.folded = r.folded := by
  obtain ⟨position, hposition⟩ := Validation.Claim.exists_position hc
  have hmem : ∀ q ∈ c.supertypes,
      Validation.Claim.ofSupertype c position q ∈ Validation.Claim.ofExtension e := by
    intro q hq
    apply hposition
    exact List.mem_append_left _ (List.mem_cons_of_mem _ (List.mem_map_of_mem hq))
  have hidentifier : (Validation.Claim.ofSupertype c position q).identifier =
      (Validation.Claim.ofSupertype c position r).identifier :=
    congrArg ("class_entry_" ++ ·) h
  have hkey := Validation.key_eq_of_identifier_eq hcollisions (hmem q hq) (hmem r hr) rfl
    hidentifier
  exact (String.append_right_inj "supertype:").mp hkey

theorem Class.nodup_parameters :
    ((Sequence.firstBy (·.folded) c.supertypes).map Identifier.classHandle).Nodup := by
  apply Sequence.nodup_map_of_determines (Sequence.nodup_map_firstBy _ c.supertypes)
  intro q hq r hr h
  exact Class.folded_eq_of_ofName_eq hcollisions hc (Sequence.mem_of_mem_firstBy hq)
    (Sequence.mem_of_mem_firstBy hr) (Identifier.classHandle_inj h)

theorem Class.handles_subset_iff :
    (∀ q ∈ c.supertypes, Identifier.classHandle q ∈
      (Sequence.firstBy (·.folded) c.supertypes).map Identifier.classHandle) ↔ c.SpeltAlike := by
  constructor
  · intro h q hq r hr hfolded
    -- Both spellings are those of the one parameter with this name.
    obtain ⟨q', hq', hqq⟩ := List.mem_map.mp (h q hq)
    obtain ⟨r', hr', hrr⟩ := List.mem_map.mp (h r hr)
    have hqfolded := Class.folded_eq_of_ofName_eq hcollisions hc
      (Sequence.mem_of_mem_firstBy hq') hq (Identifier.classHandle_inj hqq)
    have hrfolded := Class.folded_eq_of_ofName_eq hcollisions hc
      (Sequence.mem_of_mem_firstBy hr') hr (Identifier.classHandle_inj hrr)
    have hsame : q' = r' := by
      apply List.inj_on_of_nodup_map (Sequence.nodup_map_firstBy _ c.supertypes) hq' hr'
      simp only [hqfolded, hrfolded, hfolded]
    rw [← Identifier.classHandle_inj hqq, ← Identifier.classHandle_inj hrr, hsame]
  · intro h q hq
    obtain ⟨r, hr, hfolded⟩ := Sequence.exists_mem_firstBy (·.folded) hq
    have hsame := h r (Sequence.mem_of_mem_firstBy hr) q hq hfolded
    exact List.mem_map.mpr ⟨r, hr, congrArg ("class_entry_" ++ ·) hsame⟩

end handles

namespace Header

/-- The parameters of every routine are distinct, and they cover what the body uses exactly if no
supertype of the class is spelt in two ways. -/
theorem uses_subset_parameters_iff {config : Config} {e : Extension} {out : Generated}
    (h : generate config e = .ok out) :
    ∃ ss, sections config.options e = .ok ss ∧ out.text = render ss ∧
      ∀ c ∈ e.classes, ∃ r, .routine r ∈ ss ∧ Routine.ofClass e.interner c = .ok r ∧
        (r.parameters.map Identifier.classHandle).Nodup ∧ r.uses = c.supertypes ∧
        (∀ s ∈ r.body, s.uses ≠ [] → ∃ front, s.text =
          front ++ ", ".intercalate (s.uses.map Identifier.classHandle) ++ ");") ∧
        ((∀ q ∈ r.uses, Identifier.classHandle q ∈ r.parameters.map Identifier.classHandle) ↔
          c.SpeltAlike) := by
  obtain ⟨herrors, -, hemit⟩ := generate_eq_ok_iff.mp h
  have hcollisions := (Validation.errors_eq_nil herrors).2.2
  obtain ⟨ss, hss, htext⟩ := map_eq_ok_iff.mp hemit
  refine ⟨ss, hss, htext.symm, fun c hc => ?_⟩
  obtain ⟨r, hmem, hr⟩ := routine_mem_sections hss hc
  have huses := uses_ofClass hr
  obtain ⟨statements, -, -, hshape⟩ := ofClass_eq_ok hr
  refine ⟨r, hmem, hr, ?_, huses, fun s _ hs => Statement.text_of_uses hs, ?_⟩
  · rw [hshape]
    exact Class.nodup_parameters hcollisions hc
  · rw [huses, hshape]
    exact Class.handles_subset_iff hcollisions hc

def cursors : Extension where
  path := ["Db"]
  classes := [{
    name := ⟨["Db"], "Cursor"⟩
    parent? := some ⟨["Db"], "Result"⟩
    interfaces := [⟨[], "Countable"⟩, ⟨[], "Iterator"⟩, ⟨[], "Countable"⟩] }]

theorem uses_subset_parameters_cursors :
    (∃ out, generate {} cursors = .ok out) ∧ ∀ c ∈ cursors.classes, ∃ r,
      Routine.ofClass cursors.interner c = .ok r ∧
      (r.parameters.map Identifier.classHandle).Nodup ∧
      ∀ q ∈ r.uses, Identifier.classHandle q ∈ r.parameters.map Identifier.classHandle := by
  have hspelt : ∀ c ∈ cursors.classes, c.SpeltAlike := by
    unfold Class.SpeltAlike
    decide +kernel
  have hgenerated : ∃ out, generate {} cursors = .ok out :=
    exists_generate_eq_ok (by decide +kernel) (by decide +kernel)
  refine ⟨hgenerated, fun c hc => ?_⟩
  obtain ⟨out, hout⟩ := hgenerated
  obtain ⟨ss, -, -, hclasses⟩ := uses_subset_parameters_iff hout
  obtain ⟨r, -, hr, hnodup, -, -, hiff⟩ := hclasses c hc
  exact ⟨r, hr, hnodup, hiff.mpr (hspelt c hc)⟩

def respelt : Extension where
  classes := [{ name := ⟨[], "Bag"⟩, interfaces := [⟨[], "Countable"⟩, ⟨[], "countable"⟩] }]

theorem folded_respelt :
    QualifiedName.folded ⟨[], "Bag"⟩ = "bag" ∧
      QualifiedName.folded ⟨[], "Countable"⟩ = "countable" ∧
      QualifiedName.folded ⟨[], "countable"⟩ = "countable" := by
  decide +kernel

theorem hierarchy_respelt : respelt.hierarchy = ⟨[
    { name := ⟨[], "Bag"⟩, key := "bag", isLocal := true,
      links := [(.implements, ⟨[], "Countable"⟩), (.implements, ⟨[], "countable"⟩)] },
    { name := ⟨[], "Countable"⟩, key := "countable" }]⟩ := by
  simp [Extension.hierarchy, Hierarchy.ofClasses, Hierarchy.Node.ofClass, Hierarchy.Node.external,
    Hierarchy.linksOf, respelt, folded_respelt, Sequence.firstBy_cons]

theorem uses_not_subset_parameters_respelt :
    (∃ out, generate {} respelt = .ok out) ∧ ∀ c ∈ respelt.classes, ∃ r,
      Routine.ofClass respelt.interner c = .ok r ∧
      ¬ ∀ q ∈ r.uses, Identifier.classHandle q ∈ r.parameters.map Identifier.classHandle := by
  have hmembers : Validation.members respelt = [] := by decide +kernel
  have hinheritance : Validation.inheritance respelt = [] := by
    unfold Validation.inheritance
    rw [hierarchy_respelt]
    decide +kernel
  have hcollisions : Validation.collisions respelt = [] := by decide +kernel
  have herrors : (respelt.validate .lenient).errors = [] := by
    simp [Extension.validate, hmembers, hinheritance, hcollisions]
  have hroutines : (routines respelt.interner respelt.classes).isOk := by decide +kernel
  refine ⟨exists_generate_eq_ok herrors hroutines, fun c hc => ?_⟩
  obtain ⟨r, hr⟩ := ofClass_of_isOk_routines hroutines hc
  obtain ⟨statements, -, -, hshape⟩ := ofClass_eq_ok hr
  refine ⟨r, hr, ?_⟩
  rw [uses_ofClass hr, hshape, Class.handles_subset_iff hcollisions hc]
  cases List.mem_singleton.mp hc
  intro hspelt
  have hname := hspelt _ List.mem_cons_self _ (List.mem_cons_of_mem _ List.mem_cons_self)
    (folded_respelt.2.1.trans folded_respelt.2.2.symm)
  contradiction

end Header

end ExtensionHeader
