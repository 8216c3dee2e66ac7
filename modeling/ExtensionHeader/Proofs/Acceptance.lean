import ExtensionHeader.Validation.Report
import ExtensionHeader.Proofs.Sequence

/-! What holds of an extension without errors. The checks of single declarations leave valid names
that differ within each list; the check of identifiers leaves one key for each identifier. -/
namespace ExtensionHeader

@[simp] theorem Diagnostic.when_eq_nil_iff {condition : Bool} {d : Diagnostic} :
    Diagnostic.when condition d = [] ↔ condition = false := by
  cases condition <;> simp [Diagnostic.when]

def QualifiedName.IsValid (q : QualifiedName) : Prop :=
  ∀ s ∈ q.path ++ [q.name], Identifier.isValid s = true

instance (q : QualifiedName) : Decidable q.IsValid :=
  inferInstanceAs (Decidable (∀ s ∈ q.path ++ [q.name], Identifier.isValid s = true))

namespace Validation

theorem ofPath_eq_nil_iff (location : Location) (path : List String) :
    ofPath location path = [] ↔ ∀ s ∈ path, Identifier.isValid s = true := by
  simp [ofPath, List.flatMap_eq_nil_iff]

theorem ofQualifiedName_eq_nil_iff (location : Location) (q : QualifiedName) :
    ofQualifiedName location q = [] ↔ q.IsValid := by
  unfold ofQualifiedName ofSimpleName QualifiedName.IsValid
  rw [List.append_eq_nil_iff, ofPath_eq_nil_iff]
  simp [or_imp, forall_and]

theorem nodup_map_of_traversal {f : List α → α → List Diagnostic} {xs : List α}
    (h : Sequence.flatMapEarlier f xs = []) (key : α → String)
    (compares : ∀ earlier x, f earlier x = [] → earlier.any (key · = key x) = false) :
    (xs.map key).Nodup := by
  rw [Sequence.nodup_map_iff_earlier]
  intro before x after hx y hy heq
  have hany := compares before x ((Sequence.flatMapEarlier_eq_nil_iff f xs).mp h before x after hx)
  simpa [heq] using List.any_eq_false.mp hany y hy

theorem ofUnionClass_eq_nil_iff {location : Location} {text : String}
    {earlier : List QualifiedName} (h : (earlier.map (·.folded)).Nodup) (q : QualifiedName) :
    ofUnionClass location text earlier q = [] ↔
      (∀ r ∈ earlier, r.folded ≠ q.folded) ∧
        ∀ r ∈ earlier, Identifier.ofName r ≠ Identifier.ofName q := by
  unfold ofUnionClass
  -- All earlier classes count, as none of them repeats another.
  rw [Sequence.firstBy_eq_self _ h]
  cases hany : earlier.any (·.folded = q.folded) with
  | true =>
    obtain ⟨r, hr, heq⟩ := List.any_eq_true.mp hany
    simp only [if_true]
    exact iff_of_false (List.cons_ne_nil _ _) fun hne => hne.1 r hr (of_decide_eq_true heq)
  | false =>
    have hfolded : ∀ r ∈ earlier, r.folded ≠ q.folded := by simpa using hany
    rw [and_iff_right hfolded]
    cases hfind : earlier.find? (Identifier.ofName · = Identifier.ofName q) with
    | none => simpa using hfind
    | some r =>
      have hr := List.mem_of_find?_eq_some hfind
      have heq : Identifier.ofName r = Identifier.ofName q := by
        simpa using List.find?_some hfind
      simp only [Bool.false_eq_true, if_false]
      exact iff_of_false (List.cons_ne_nil _ _) fun hne => hne r hr heq

theorem ofUnionClasses_eq_nil_iff {location : Location} {text : String}
    {classes : List QualifiedName} :
    Sequence.flatMapEarlier (ofUnionClass location text) classes = [] ↔
      (classes.map (·.folded)).Nodup ∧ (classes.map Identifier.ofName).Nodup := by
  constructor
  · intro h
    have hfolded : (classes.map (·.folded)).Nodup := by
      apply nodup_map_of_traversal h
      intro earlier q hq
      unfold ofUnionClass at hq
      split at hq
      · contradiction
      · rename_i hany
        simpa using hany
    refine ⟨hfolded, (Sequence.nodup_map_iff_earlier _ _).mpr ?_⟩
    intro before q after hclasses
    have hnone := (Sequence.flatMapEarlier_eq_nil_iff _ _).mp h before q after hclasses
    rw [hclasses, List.map_append] at hfolded
    exact ((ofUnionClass_eq_nil_iff (List.nodup_append.mp hfolded).1 q).mp hnone).2
  · rintro ⟨hfolded, hids⟩
    rw [Sequence.flatMapEarlier_eq_nil_iff]
    intro before q after hclasses
    have hbefore := (Sequence.nodup_map_iff_earlier _ _).mp hfolded before q after hclasses
    have hdiffer := (Sequence.nodup_map_iff_earlier _ _).mp hids before q after hclasses
    rw [hclasses, List.map_append] at hfolded
    exact (ofUnionClass_eq_nil_iff (List.nodup_append.mp hfolded).1 q).mpr ⟨hbefore, hdiffer⟩

end Validation

structure Property.Accepted (owner : QualifiedName) (p : Property) : Prop where
  name : Identifier.isValid p.name = true
  type : Validation.ofOptionalType .property (.property owner p.name) p.type? = []
  default : Validation.ofPropertyDefault (.property owner p.name) p = []

structure Class.Accepted (c : Class) : Prop where
  name : c.name.IsValid
  methodName : ∀ m ∈ c.methods, Identifier.isValid m.name = true
  methods : (c.methods.map (·.name.toLower)).Nodup
  property : ∀ p ∈ c.properties, p.Accepted c.name
  properties : (c.properties.map (·.name)).Nodup

structure Extension.Accepted (e : Extension) : Prop where
  path : ∀ s ∈ e.path, Identifier.isValid s = true
  functionName : ∀ f ∈ e.functions, f.name.IsValid
  functions : (e.functions.map (·.name.folded)).Nodup
  cls : ∀ c ∈ e.classes, c.Accepted
  classes : (e.classes.map (·.name.folded)).Nodup

namespace Validation

theorem ofFunction_eq_nil {earlier : List Function} {f : Function}
    (h : ofFunction earlier f = []) :
    f.name.IsValid ∧ earlier.any (·.name.folded = f.name.folded) = false := by
  simp only [ofFunction, List.append_eq_nil_iff, Diagnostic.when_eq_nil_iff] at h
  exact ⟨(ofQualifiedName_eq_nil_iff _ _).mp h.1.1, h.1.2⟩

theorem ofMethod_eq_nil {c : Class} {earlier : List Method} {m : Method}
    (h : ofMethod c earlier m = []) :
    Identifier.isValid m.name = true ∧
      earlier.any (·.name.toLower = m.name.toLower) = false := by
  simp only [ofMethod, List.append_eq_nil_iff, Diagnostic.when_eq_nil_iff] at h
  exact ⟨by simpa [ofSimpleName] using h.1.1.1.1, h.1.1.1.2⟩

theorem ofProperty_eq_nil {c : Class} {earlier : List Property} {p : Property}
    (h : ofProperty c earlier p = []) :
    p.Accepted c.name ∧ earlier.any (·.name = p.name) = false := by
  simp only [ofProperty, List.append_eq_nil_iff, Diagnostic.when_eq_nil_iff] at h
  exact ⟨⟨by simpa [ofSimpleName] using h.1.1.1, h.1.2, h.2⟩, h.1.1.2⟩

theorem ofClass_eq_nil {earlier : List Class} {c : Class} (h : ofClass earlier c = []) :
    c.Accepted ∧ earlier.any (·.name.folded = c.name.folded) = false := by
  simp only [ofClass, List.append_eq_nil_iff, Diagnostic.when_eq_nil_iff] at h
  obtain ⟨⟨⟨⟨hname, hdup⟩, -⟩, hmethods⟩, hproperties⟩ := h
  refine ⟨⟨(ofQualifiedName_eq_nil_iff _ _).mp hname, ?_, ?_, ?_, ?_⟩, hdup⟩
  · intro m hm
    obtain ⟨before, hb⟩ := Sequence.exists_eq_nil_of_mem hmethods hm
    exact (ofMethod_eq_nil hb).1
  · exact nodup_map_of_traversal hmethods _ fun _ _ hb => (ofMethod_eq_nil hb).2
  · intro p hp
    obtain ⟨before, hb⟩ := Sequence.exists_eq_nil_of_mem hproperties hp
    exact (ofProperty_eq_nil hb).1
  · exact nodup_map_of_traversal hproperties _ fun _ _ hb => (ofProperty_eq_nil hb).2

theorem accepted_of_members {e : Extension} (h : members e = []) : e.Accepted := by
  simp only [members, List.append_eq_nil_iff] at h
  obtain ⟨⟨hpath, hfunctions⟩, hclasses⟩ := h
  refine ⟨(ofPath_eq_nil_iff _ _).mp hpath, ?_, ?_, ?_, ?_⟩
  · intro f hf
    obtain ⟨before, hb⟩ := Sequence.exists_eq_nil_of_mem hfunctions hf
    exact (ofFunction_eq_nil hb).1
  · exact nodup_map_of_traversal hfunctions _ fun _ _ hb => (ofFunction_eq_nil hb).2
  · intro c hc
    obtain ⟨before, hb⟩ := Sequence.exists_eq_nil_of_mem hclasses hc
    exact (ofClass_eq_nil hb).1
  · exact nodup_map_of_traversal hclasses _ fun _ _ hb => (ofClass_eq_nil hb).2

theorem errors_eq_nil {e : Extension} {mode : Mode} (h : (e.validate mode).errors = []) :
    members e = [] ∧ inheritance e = [] ∧ collisions e = [] := by
  cases mode <;> simp_all [Extension.validate, List.append_eq_nil_iff]

theorem accepted_of_errors {e : Extension} {mode : Mode} (h : (e.validate mode).errors = []) :
    e.Accepted :=
  accepted_of_members (errors_eq_nil h).1

end Validation

end ExtensionHeader
