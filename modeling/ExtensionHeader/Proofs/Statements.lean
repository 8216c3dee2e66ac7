import ExtensionHeader.Proofs.Routine

/-! What the body of a registration routine consists of. The statements that declare a property
work on the variables of this property alone; the variables that they declare come in a fixed
order. -/
namespace ExtensionHeader

open Header

inductive Header.Statement.IsFor (p : Property) : Statement → Prop
  | blank : IsFor p .blank
  | declareValue : IsFor p (.declareValue (Variable.value p.name))
  | setValue (initial : Initial) : IsFor p (.setValue (Variable.value p.name) initial)
  | makeText (text : String) : IsFor p (.makeString (Variable.text p.name) text)
  | giveText : IsFor p (.giveString (Variable.value p.name) (Variable.text p.name))
  | holdName : IsFor p (.holdString (Variable.name p.name) p.name)
  | holdClass {q : QualifiedName} (h : q ∈ p.classes) (text : String) :
    IsFor p (.holdString (Variable.cls p.name q) text)
  | untyped : IsFor p (.untyped (Variable.type p.name))
  | maskType (mask : TypeMask) : IsFor p (.maskType (Variable.type p.name) mask)
  | classType {q : QualifiedName} (h : q ∈ p.classes) :
    IsFor p (.classType (Variable.type p.name) (Variable.cls p.name q))
  | makeList (count : Nat) : IsFor p (.makeList (Variable.list p.name) count)
  | setCount (count : Nat) : IsFor p (.setCount (Variable.list p.name) count)
  | setSlot {q : QualifiedName} (h : q ∈ p.classes) (index : Nat) :
    IsFor p (.setSlot (Variable.list p.name) index (Variable.cls p.name q))
  | unionType (mask : TypeMask) :
    IsFor p (.unionType (Variable.type p.name) (Variable.list p.name) mask)
  | declareProperty (flags : AccessFlags) :
    IsFor p (.declareProperty (Variable.name p.name) (Variable.value p.name) flags
      (Variable.type p.name))
  | releaseName : IsFor p (.releaseString (Variable.name p.name))
  | releaseClass {q : QualifiedName} (h : q ∈ p.classes) :
    IsFor p (.releaseString (Variable.cls p.name q))

namespace Header

open Statement

theorem isFor_storeDefault {p : Property} {statements : List Statement}
    (h : storeDefault p = .ok statements) : ∀ s ∈ statements, s.IsFor p := by
  rcases storeDefault_cases h with ⟨text, -, rfl⟩ | ⟨initial, -, rfl⟩
  · exact List.forall_mem_cons.mpr ⟨.makeText text, List.forall_mem_singleton.mpr .giveText⟩
  · exact List.forall_mem_singleton.mpr (.setValue initial)

theorem isFor_makes {p : Property} {statements : List Statement} (h : p.Makes statements) :
    ∀ s ∈ statements, s.IsFor p := by
  cases h with
  | untyped => exact List.forall_mem_singleton.mpr .untyped
  | mask => exact List.forall_mem_singleton.mpr (.maskType _)
  | cls ht =>
    have hclasses := Property.classes_eq ht
    exact List.forall_mem_singleton.mpr (.classType (hclasses ▸ List.mem_singleton_self _))
  | union =>
    intro s hs
    simp only [List.mem_append, List.mem_cons, List.not_mem_nil, or_false, List.mem_map,
      Prod.exists] at hs
    rcases hs with ((rfl | rfl) | ⟨q, index, hq, rfl⟩) | rfl
    · exact .makeList _
    · exact .setCount _
    · exact .setSlot (List.fst_mem_of_mem_zipIdx hq) index
    · exact .unionType _

theorem isFor_declareProperty {interner : Interner} {p : Property} {statements : List Statement}
    (h : declareProperty interner p = .ok statements) : ∀ s ∈ statements, s.IsFor p := by
  obtain ⟨value, make, text, hvalue, hmake, rfl⟩ := declareProperty_cases h
  intro s hs
  simp only [List.cons_append, List.append_assoc, List.mem_append, List.mem_cons,
    List.not_mem_nil, or_false, List.mem_map] at hs
  rcases hs with rfl | hs | rfl | ⟨q, hq, rfl⟩ | hs | rfl | rfl | ⟨q, hq, rfl⟩ | rfl
  · exact .declareValue
  · exact isFor_storeDefault hvalue s hs
  · exact .holdName
  · exact .holdClass hq _
  · exact isFor_makes hmake s hs
  · exact .declareProperty _
  · exact .releaseName
  · exact .releaseClass hq
  · exact .blank

theorem isFor_declareProperties {interner : Interner} {properties : List Property}
    {statements : List Statement} (h : declareProperties interner properties = .ok statements) :
    ∀ s ∈ statements, ∃ p ∈ properties, s.IsFor p := by
  obtain ⟨blocks, hblocks, rfl⟩ := declareProperties_eq_ok_iff.mp h
  intro s hs
  obtain ⟨block, hblock, hs⟩ := List.mem_flatten.mp hs
  obtain ⟨p, hp, hown⟩ := Sequence.exists_left_of_forall₂ hblocks hblock
  exact ⟨p, hp, isFor_declareProperty hown s hs⟩

end Header

end ExtensionHeader
