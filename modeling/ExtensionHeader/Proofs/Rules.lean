import ExtensionHeader.Proofs.Acceptance

/-! Which rules a check reports on. A check speaks of its own rules only, so what validation says
about the others is seen from the remaining checks. -/
namespace ExtensionHeader

namespace Diagnostic

def Under (rules : List Rule) (ds : List Diagnostic) : Prop := ∀ d ∈ ds, d.rule ∈ rules

section Under

variable {rules others : List Rule} {first second ds : List Diagnostic}

@[simp] theorem under_nil : Under rules [] := by
  intro d hd
  exact absurd hd List.not_mem_nil

@[simp] theorem under_singleton {d : Diagnostic} : Under rules [d] ↔ d.rule ∈ rules := by
  simp [Under]

@[simp] theorem under_append :
    Under rules (first ++ second) ↔ Under rules first ∧ Under rules second := by
  simp [Under, or_imp, forall_and]

@[simp] theorem under_when {condition : Bool} {d : Diagnostic} :
    Under rules (when condition d) ↔ (condition = true → d.rule ∈ rules) := by
  simp [Under]

theorem under_report {condition : Bool} {rule : Rule} {location : Location} {message : String}
    (h : rule ∈ rules) : Under rules (when condition ⟨rule, location, message⟩) :=
  under_when.mpr fun _ => h

theorem under_flatMap {f : α → List Diagnostic} (h : ∀ x, Under rules (f x)) (xs : List α) :
    Under rules (xs.flatMap f) := by
  intro d hd
  obtain ⟨x, -, hx⟩ := List.mem_flatMap.mp hd
  exact h x d hx

theorem under_flatMapEarlier {f : List α → α → List Diagnostic}
    (h : ∀ earlier x, Under rules (f earlier x)) (xs : List α) :
    Under rules (Sequence.flatMapEarlier f xs) :=
  Sequence.forall_mem_flatMapEarlier h xs

theorem Under.forall_not_mem (h : Under rules ds) (apart : ∀ rule ∈ rules, rule ∉ others) :
    ∀ d ∈ ds, d.rule ∉ others :=
  fun d hd => apart d.rule (h d hd)

theorem Under.mono (h : Under rules ds) (more : ∀ rule ∈ rules, rule ∈ others) : Under others ds :=
  fun d hd => more d.rule (h d hd)

theorem Under.filter_eq_nil (h : Under rules ds) {p : Diagnostic → Bool}
    (apart : ∀ d : Diagnostic, d.rule ∈ rules → p d = false) : ds.filter p = [] := by
  rw [List.filter_eq_nil_iff]
  intro d hd
  rw [apart d (h d hd)]
  exact Bool.false_ne_true

end Under

end Diagnostic

namespace Validation

open Diagnostic

def typeRules : List Rule :=
  [.emptyUnion, .duplicateUnionMember, .invalidUnionMember, .invalidTypePosition,
    .manglingCollision]

def orderRules : List Rule := [.parameterOrder, .variadicNotLast, .variadicDefault]

def signatureRules : List Rule :=
  [.invalidName, .duplicateParameter, .defaultTypeMismatch] ++ orderRules ++ typeRules

def propertyRules : List Rule :=
  [.invalidName, .duplicateProperty, .defaultTypeMismatch, .unsupportedDefault] ++ typeRules

def memberRules : List Rule :=
  [.duplicateFunction, .duplicateMethod, .duplicateClass, .invalidFlags] ++ signatureRules ++
    propertyRules

theorem under_ofPath (location : Location) (path : List String) :
    Under [.invalidName] (ofPath location path) :=
  under_flatMap (fun _ => by simp) path

theorem under_ofSimpleName (location : Location) (name : String) :
    Under [.invalidName] (ofSimpleName location name) := by
  simp [ofSimpleName]

theorem under_ofUnionClass (location : Location) (text : String) (earlier : List QualifiedName)
    (q : QualifiedName) : Under typeRules (ofUnionClass location text earlier q) := by
  unfold ofUnionClass
  split
  · simp [typeRules]
  · split <;> simp [typeRules]

theorem under_ofUnion (position : Position) (location : Location) (u : UnionType) :
    Under typeRules (ofUnion position location u) := by
  have hclasses := under_flatMapEarlier (under_ofUnionClass location u.display) u.classes
  unfold ofUnion
  split
  · simp [typeRules]
  · simp only [under_append, under_when]
    refine ⟨⟨⟨hclasses, ?_⟩, ?_⟩, ?_⟩ <;> simp [typeRules, callableProperty]

theorem under_ofOptionalType (position : Position) (location : Location)
    (type? : Option DeclaredType) : Under typeRules (ofOptionalType position location type?) := by
  rcases type? with _ | kind | q | u
  · exact under_nil
  · simp [ofOptionalType, ofType, callableProperty, typeRules]
  · exact under_nil
  · exact under_ofUnion position location u

theorem under_ofDefault (location : Location) (type? : Option DeclaredType)
    (default? : Option DefaultValue) :
    Under [.defaultTypeMismatch] (ofDefault location type? default?) := by
  cases type? <;> cases default? <;> simp [ofDefault]

theorem under_ofQualifiedName (location : Location) (q : QualifiedName) :
    Under [.invalidName] (ofQualifiedName location q) :=
  under_append.mpr ⟨under_ofPath location q.path, under_ofSimpleName location q.name⟩

theorem under_ofOrder (location : Location) (earlier : List Parameter) (isLast : Bool)
    (p : Parameter) : Under orderRules (ofOrder location earlier isLast p) := by
  unfold ofOrder
  split <;> simp [orderRules]

theorem under_ofParameter (owner : Location) (count : Nat) (earlier : List Parameter)
    (p : Parameter) : Under signatureRules (ofParameter owner count earlier p) := by
  unfold ofParameter
  simp only [under_append]
  refine ⟨⟨⟨⟨?_, ?_⟩, ?_⟩, ?_⟩, ?_⟩
  · exact (under_ofSimpleName _ _).mono (by decide)
  · exact under_report (by decide)
  · exact (under_ofOrder _ _ _ _).mono (by decide)
  · exact (under_ofOptionalType _ _ _).mono (by decide)
  · exact (under_ofDefault _ _ _).mono (by decide)

theorem under_ofSignature (location : Location) (s : Signature) :
    Under signatureRules (ofSignature location s) :=
  under_append.mpr ⟨under_flatMapEarlier (under_ofParameter _ _) s.parameters,
    (under_ofOptionalType _ _ _).mono (by decide)⟩

theorem under_ofFunction (earlier : List Function) (f : Function) :
    Under (.duplicateFunction :: signatureRules) (ofFunction earlier f) := by
  unfold ofFunction
  simp only [under_append]
  refine ⟨⟨?_, ?_⟩, ?_⟩
  · exact (under_ofQualifiedName _ _).mono (by decide)
  · exact under_report (by decide)
  · exact (under_ofSignature _ _).mono (by decide)

theorem under_ofMethod (c : Class) (earlier : List Method) (m : Method) :
    Under (.duplicateMethod :: .invalidFlags :: signatureRules) (ofMethod c earlier m) := by
  unfold ofMethod
  simp only [under_append]
  refine ⟨⟨⟨⟨?_, ?_⟩, ?_⟩, ?_⟩, ?_⟩
  · exact (under_ofSimpleName _ _).mono (by decide)
  · exact under_report (by decide)
  · exact under_report (by decide)
  · exact under_report (by decide)
  · exact (under_ofSignature _ _).mono (by decide)

theorem under_ofPropertyDefault (location : Location) (p : Property) :
    Under [.defaultTypeMismatch, .unsupportedDefault] (ofPropertyDefault location p) := by
  unfold ofPropertyDefault
  split
  · simp
  · exact (under_ofDefault _ _ _).mono (by decide)

theorem under_ofProperty (c : Class) (earlier : List Property) (p : Property) :
    Under propertyRules (ofProperty c earlier p) := by
  unfold ofProperty
  simp only [under_append]
  refine ⟨⟨⟨?_, ?_⟩, ?_⟩, ?_⟩
  · exact (under_ofSimpleName _ _).mono (by decide)
  · exact under_report (by decide)
  · exact (under_ofOptionalType _ _ _).mono (by decide)
  · exact (under_ofPropertyDefault _ _).mono (by decide)

theorem under_ofClass (earlier : List Class) (c : Class) :
    Under memberRules (ofClass earlier c) := by
  unfold ofClass
  simp only [under_append]
  refine ⟨⟨⟨⟨?_, ?_⟩, ?_⟩, ?_⟩, ?_⟩
  · exact (under_ofQualifiedName _ _).mono (by decide)
  · exact under_report (by decide)
  · exact under_report (by decide)
  · exact (under_flatMapEarlier (under_ofMethod c) c.methods).mono (by decide)
  · exact (under_flatMapEarlier (under_ofProperty c) c.properties).mono (by decide)

theorem under_members (e : Extension) : Under memberRules (members e) := by
  unfold members
  simp only [under_append]
  refine ⟨⟨?_, ?_⟩, ?_⟩
  · exact (under_ofPath _ _).mono (by decide)
  · exact (under_flatMapEarlier under_ofFunction e.functions).mono (by decide)
  · exact under_flatMapEarlier under_ofClass e.classes

theorem under_ofCycle (members : List QualifiedName) :
    Under [.inheritanceCycle] (ofCycle members) := by
  cases members <;> simp [ofCycle]

theorem under_ofParent (h : Hierarchy) (c : Class) : Under [.invalidFlags] (ofParent h c) := by
  unfold ofParent
  split <;> simp

theorem under_inheritance (e : Extension) :
    Under [.inheritanceCycle, .invalidFlags] (inheritance e) :=
  under_append.mpr
    ⟨(under_flatMap under_ofCycle _).mono (by decide),
      (under_flatMap (under_ofParent _) _).mono (by decide)⟩

theorem under_undeclared (e : Extension) : Under [.unresolvedReference] (undeclared e) := by
  intro d hd
  obtain ⟨r, -, rfl⟩ := List.mem_map.mp hd
  exact List.mem_singleton_self _

theorem under_collisions (e : Extension) : Under [.manglingCollision] (collisions e) := by
  apply under_flatMapEarlier
  intro earlier claim
  unfold ofClaim
  split <;> simp

end Validation

end ExtensionHeader
