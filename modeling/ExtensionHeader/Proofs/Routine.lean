import ExtensionHeader.Header.Routine
import ExtensionHeader.Proofs.Interner
import ExtensionHeader.Proofs.Ownership

/-! When the statements for a property can be made, and which handles they create, use and release.
The handles of a routine are those of its properties. -/
namespace ExtensionHeader

open Ownership Header

def Property.classes (p : Property) : List QualifiedName := (p.type?.map (·.classes)).getD []

theorem Property.classes_eq {p : Property} {type : DeclaredType} (h : p.type? = some type) :
    p.classes = type.classes := by
  simp [Property.classes, h]

/-- What a routine needs to declare a property. -/
structure Property.Expressible (interner : Interner) (p : Property) : Prop where
  default : ∀ cls name, p.default? ≠ some (.constant cls name)
  classes : ∀ q ∈ p.classes, ∃ symbol, interner.get? q.display = some symbol
  type : ∀ u, p.type? = some (.union u) → u.isEmpty = false

namespace Header

section Except

variable {ε α β : Type} {x : Except ε α} {f : α → Except ε β}

theorem bind_eq_ok_iff {y : β} : (x >>= f) = .ok y ↔ ∃ a, x = .ok a ∧ f a = .ok y := by
  cases x <;> simp [bind, Except.bind]

theorem bind_eq_error_iff {e : ε} :
    (x >>= f) = .error e ↔ x = .error e ∨ ∃ a, x = .ok a ∧ f a = .error e := by
  cases x <;> simp [bind, Except.bind]

theorem map_eq_ok_iff {g : α → β} {y : β} : x.map g = .ok y ↔ ∃ a, x = .ok a ∧ g a = y := by
  cases x <;> simp [Except.map]

end Except

theorem storeDefault_ok {p : Property} (h : ∀ cls name, p.default? ≠ some (.constant cls name)) :
    ∃ statements, storeDefault p = .ok statements := by
  unfold storeDefault
  cases hd : p.default? with
  | none => exact ⟨_, rfl⟩
  | some value =>
    cases value with
    | constant cls name => exact absurd hd (h cls name)
    | _ => exact ⟨_, rfl⟩

theorem holdClasses_ok {interner : Interner} (property : String) {classes : List QualifiedName}
    (h : ∀ q ∈ classes, ∃ symbol, interner.get? q.display = some symbol) :
    ∃ statements, holdClasses interner property classes = .ok statements := by
  induction classes with
  | nil => exact ⟨[], rfl⟩
  | cons q rest ih =>
    obtain ⟨symbol, hs⟩ := h q List.mem_cons_self
    obtain ⟨text, ht⟩ := Option.isSome_iff_exists.mp (Interner.isSome_resolve?_of_get? hs)
    obtain ⟨statements, hr⟩ := ih fun q' hq' => h q' (List.mem_cons_of_mem q hq')
    refine ⟨.holdString (Variable.cls property q) text :: statements, ?_⟩
    simp [holdClasses, hs, ht, hr, Except.map]

theorem makeType_ok (property : String) {type : DeclaredType}
    (h : ∀ u, type = .union u → u.isEmpty = false) :
    ∃ statements, makeType property type = .ok statements := by
  cases type with
  | scalar kind => exact ⟨_, rfl⟩
  | cls q => exact ⟨_, rfl⟩
  | union u =>
    have hu := h u rfl
    cases hc : u.classes.isEmpty <;> simp [makeType, hu, hc]

theorem storeType_ok {interner : Interner} {p : Property} (h : p.Expressible interner) :
    ∃ statements, storeType interner p = .ok statements := by
  unfold storeType
  cases ht : p.type? with
  | none => exact ⟨_, rfl⟩
  | some type =>
    have hclasses := h.classes
    rw [Property.classes_eq ht] at hclasses
    have hunion : ∀ u, type = .union u → u.isEmpty = false := fun u hu => h.type u (hu ▸ ht)
    obtain ⟨held, hheld⟩ := holdClasses_ok p.name hclasses
    obtain ⟨made, hmade⟩ := makeType_ok p.name hunion
    refine ⟨held ++ made, ?_⟩
    simp only [hheld, hmade]
    rfl

theorem declareProperty_ok {interner : Interner} {p : Property} (h : p.Expressible interner) :
    ∃ statements, declareProperty interner p = .ok statements := by
  obtain ⟨value, hvalue⟩ := storeDefault_ok h.default
  obtain ⟨type, htype⟩ := storeType_ok h
  unfold declareProperty
  simp only [hvalue, htype]
  exact ⟨_, rfl⟩

theorem declareProperties_ok {interner : Interner} {properties : List Property}
    (h : ∀ p ∈ properties, p.Expressible interner) :
    ∃ statements, declareProperties interner properties = .ok statements := by
  induction properties with
  | nil => exact ⟨[], rfl⟩
  | cons p rest ih =>
    obtain ⟨first, hfirst⟩ := declareProperty_ok (h p List.mem_cons_self)
    obtain ⟨others, hothers⟩ := ih fun p' hp' => h p' (List.mem_cons_of_mem p hp')
    refine ⟨first ++ others, ?_⟩
    simp only [declareProperties, hfirst, hothers]
    rfl

theorem declareProperties_eq_ok_iff {interner : Interner} {properties : List Property}
    {statements : List Statement} :
    declareProperties interner properties = .ok statements ↔
      ∃ blocks, List.Forall₂ (declareProperty interner · = .ok ·) properties blocks ∧
        statements = blocks.flatten := by
  induction properties generalizing statements with
  | nil =>
    simp only [declareProperties, List.forall₂_nil_left_iff, exists_eq_left, List.flatten_nil]
    exact ⟨fun h => (Except.ok.inj h).symm, fun h => congrArg Except.ok h.symm⟩
  | cons p rest ih =>
    simp only [declareProperties, bind_eq_ok_iff, ih, List.forall₂_cons_left_iff]
    constructor
    · rintro ⟨first, hfirst, _, ⟨blocks, hblocks, rfl⟩, hs⟩
      exact ⟨_, ⟨first, blocks, hfirst, hblocks, rfl⟩, (Except.ok.inj hs).symm⟩
    · rintro ⟨_, ⟨first, blocks, hfirst, hblocks, rfl⟩, rfl⟩
      exact ⟨first, hfirst, _, ⟨blocks, hblocks, rfl⟩, rfl⟩

/-- What is found in the declaration of each property is found in all declarations in turn. -/
theorem flatMap_declareProperties {interner : Interner} {properties : List Property}
    {statements : List Statement} {find : Statement → List β} {own : Property → List β}
    (h : declareProperties interner properties = .ok statements)
    (hown : ∀ p block, declareProperty interner p = .ok block → block.flatMap find = own p) :
    statements.flatMap find = properties.flatMap own := by
  obtain ⟨blocks, hblocks, rfl⟩ := declareProperties_eq_ok_iff.mp h
  clear h
  induction hblocks with
  | nil => rfl
  | cons hfirst _ ih =>
    rw [List.flatten_cons, List.flatMap_append, List.flatMap_cons, hown _ _ hfirst, ih]

end Header

namespace Property

def textHandle? (p : Property) : Option String :=
  match p.default? with
  | some (.string _) => some (Variable.text p.name)
  | _ => none

def classHandles (p : Property) : List String := p.classes.map (Variable.cls p.name)

def listHandle? (p : Property) : Option String :=
  match p.type? with
  | some (.union u) => if u.classes.isEmpty then none else some (Variable.list p.name)
  | _ => none

theorem listHandle?_of_nil {p : Property} (h : p.classes = []) : p.listHandle? = none := by
  unfold listHandle?
  split
  · rename_i u hu
    have hclasses : u.classes = [] := (classes_eq hu).symm.trans h
    rw [hclasses]
    rfl
  · rfl

theorem listHandle?_of_union {p : Property} {u : UnionType} (ht : p.type? = some (.union u))
    (h : p.classes ≠ []) : p.listHandle? = some (Variable.list p.name) := by
  have hclasses : p.classes = u.classes := classes_eq ht
  unfold listHandle?
  rw [ht]
  exact if_neg fun hempty => h (hclasses.trans (List.isEmpty_iff.mp hempty))

def declaration (p : Property) : Statement :=
  .declareProperty (Variable.name p.name) (Variable.value p.name) (.ofProperty p)
    (Variable.type p.name)

/-- The statements make the type of the property. A list is only made for classes in a union. -/
inductive Makes (p : Property) : List Statement → Prop
  | untyped (h : p.type? = none) : Makes p [.untyped (Variable.type p.name)]
  | mask {type : DeclaredType} (h : p.type? = some type) (hclasses : p.classes = []) :
    Makes p [.maskType (Variable.type p.name) type.mask]
  | cls {q : QualifiedName} (h : p.type? = some (.cls q)) :
    Makes p [.classType (Variable.type p.name) (Variable.cls p.name q)]
  | union {u : UnionType} (h : p.type? = some (.union u)) (hclasses : p.classes ≠ []) :
    Makes p ([.makeList (Variable.list p.name) p.classes.length,
      .setCount (Variable.list p.name) p.classes.length] ++
      p.classes.zipIdx.map (fun (q, index) =>
        .setSlot (Variable.list p.name) index (Variable.cls p.name q)) ++
      [.unionType (Variable.type p.name) (Variable.list p.name) u.mask])

def handles (p : Property) : List String :=
  p.textHandle?.toList ++ Variable.name p.name :: p.classHandles ++ p.listHandle?.toList

def events (p : Property) : List Event :=
  p.textHandle?.toList.flatMap
      (fun text => [.allocate text, .transfer text (Variable.value p.name)]) ++
    .acquire (Variable.name p.name) :: p.classHandles.map .acquire ++
    (p.listHandle?.toList.map .allocate ++
      p.classHandles.map (.consume · Statement.classMacro) ++
      p.listHandle?.toList.map (.transfer · (Variable.type p.name))) ++
    [.consume (Variable.name p.name) Statement.declareMacro, .release (Variable.name p.name)] ++
    p.classHandles.map .release

end Property

namespace Header

theorem storeDefault_cases {p : Property} {statements : List Statement}
    (h : storeDefault p = .ok statements) :
    (∃ text, p.textHandle? = some (Variable.text p.name) ∧
      statements = [.makeString (Variable.text p.name) text,
        .giveString (Variable.value p.name) (Variable.text p.name)]) ∨
    ∃ initial, p.textHandle? = none ∧ statements = [.setValue (Variable.value p.name) initial] := by
  unfold storeDefault at h
  unfold Property.textHandle?
  cases hd : p.default? with
  | none =>
    simp only [hd, Except.ok.injEq] at h
    exact .inr ⟨_, rfl, h.symm⟩
  | some value =>
    cases value <;> simp only [hd, Except.ok.injEq, reduceCtorEq] at h
    case string text => exact .inl ⟨text, rfl, h.symm⟩
    all_goals exact .inr ⟨_, rfl, h.symm⟩

theorem holdClasses_cases {interner : Interner} {property : String}
    {classes : List QualifiedName} {statements : List Statement}
    (h : holdClasses interner property classes = .ok statements) :
    ∃ text : QualifiedName → String,
      statements = classes.map fun q => .holdString (Variable.cls property q) (text q) := by
  refine ⟨fun q => ((interner.get? q.display).bind interner.resolve?).getD "", ?_⟩
  induction classes generalizing statements with
  | nil => exact (Except.ok.inj h).symm
  | cons q rest ih =>
    simp only [holdClasses] at h
    split at h
    · contradiction
    · rename_i text htext
      obtain ⟨others, hothers, rfl⟩ := map_eq_ok_iff.mp h
      simp only [List.map_cons, htext, Option.getD_some]
      rw [← ih hothers]

theorem makeType_cases {p : Property} {type : DeclaredType} {statements : List Statement}
    (ht : p.type? = some type) (h : makeType p.name type = .ok statements) :
    p.Makes statements := by
  have hclasses := Property.classes_eq ht
  cases type with
  | scalar kind =>
    cases Except.ok.inj h
    exact .mask ht hclasses
  | cls q =>
    cases Except.ok.inj h
    exact .cls ht
  | union u =>
    have hlist : p.classes = u.classes := hclasses
    simp only [makeType, ← hlist] at h
    split at h
    · contradiction
    · split at h
      · rename_i hempty
        cases Except.ok.inj h
        exact .mask ht (List.isEmpty_iff.mp hempty)
      · rename_i hempty
        cases Except.ok.inj h
        exact .union ht fun hnil => hempty (List.isEmpty_iff.mpr hnil)

theorem storeType_cases {interner : Interner} {p : Property} {statements : List Statement}
    (h : storeType interner p = .ok statements) :
    ∃ (text : QualifiedName → String) (make : List Statement), p.Makes make ∧
      statements = p.classes.map (fun q => .holdString (Variable.cls p.name q) (text q)) ++
        make := by
  unfold storeType at h
  cases ht : p.type? with
  | none =>
    simp only [ht, Except.ok.injEq] at h
    refine ⟨fun _ => "", _, .untyped ht, ?_⟩
    simp [Property.classes, ht, h]
  | some type =>
    simp only [ht, bind_eq_ok_iff] at h
    obtain ⟨held, hheld, made, hmade, hs⟩ := h
    obtain ⟨text, rfl⟩ := holdClasses_cases hheld
    cases Except.ok.inj hs
    rw [Property.classes_eq ht]
    exact ⟨text, made, makeType_cases ht hmade, rfl⟩

/-- All that the declaration of a property consists of. -/
theorem declareProperty_cases {interner : Interner} {p : Property} {statements : List Statement}
    (h : declareProperty interner p = .ok statements) :
    ∃ (value make : List Statement) (text : QualifiedName → String),
      storeDefault p = .ok value ∧ p.Makes make ∧
      statements = .declareValue (Variable.value p.name) :: value ++
        .holdString (Variable.name p.name) p.name ::
        p.classes.map (fun q => .holdString (Variable.cls p.name q) (text q)) ++ make ++
        p.declaration :: .releaseString (Variable.name p.name) ::
        p.classes.map (fun q => .releaseString (Variable.cls p.name q)) ++ [.blank] := by
  simp only [declareProperty, bind_eq_ok_iff] at h
  obtain ⟨value, hvalue, type, htype, hs⟩ := h
  obtain ⟨text, make, hmake, rfl⟩ := storeType_cases htype
  refine ⟨value, make, text, hvalue, hmake, ?_⟩
  rw [← Except.ok.inj hs]
  simp [Property.classes, Property.declaration]

/-! What the statements do to strings and lists. -/

/-- What is read off each of the statements that work on a string or a list. -/
structure Trace (α : Type) where
  makeString : (handle : String) → α
  holdString : (handle : String) → α
  giveString : (value handle : String) → α
  copyString : (handle : String) → α
  makeList : (list : String) → α
  handList : (type list : String) → α
  declare : (name value : String) → α
  releaseString : (handle : String) → α

namespace Trace

variable {α : Type} (t : Trace α)

def read? : Statement → Option α
  | .makeString handle _ => some (t.makeString handle)
  | .holdString handle _ => some (t.holdString handle)
  | .giveString value handle => some (t.giveString value handle)
  | .classType _ handle | .setSlot _ _ handle => some (t.copyString handle)
  | .makeList list _ => some (t.makeList list)
  | .unionType type list _ => some (t.handList type list)
  | .declareProperty name value _ _ => some (t.declare name value)
  | .releaseString handle => some (t.releaseString handle)
  | _ => none

def ofProperty (p : Property) : List α :=
  p.textHandle?.toList.flatMap
      (fun text => [t.makeString text, t.giveString (Variable.value p.name) text]) ++
    t.holdString (Variable.name p.name) :: p.classHandles.map t.holdString ++
    (p.listHandle?.toList.map t.makeList ++ p.classHandles.map t.copyString ++
      p.listHandle?.toList.map (t.handList (Variable.type p.name))) ++
    t.declare (Variable.name p.name) (Variable.value p.name) ::
    (Variable.name p.name :: p.classHandles).map t.releaseString

theorem filterMap_storeDefault {p : Property} {statements : List Statement}
    (h : storeDefault p = .ok statements) :
    statements.filterMap t.read? = p.textHandle?.toList.flatMap
      fun text => [t.makeString text, t.giveString (Variable.value p.name) text] := by
  rcases storeDefault_cases h with ⟨text, htext, rfl⟩ | ⟨initial, htext, rfl⟩ <;> rw [htext] <;> rfl

theorem filterMap_setSlots (list property : String) (classes : List QualifiedName) :
    (classes.zipIdx.map fun (q, index) =>
        Statement.setSlot list index (Variable.cls property q)).filterMap t.read? =
      (classes.map (Variable.cls property)).map t.copyString := by
  have hfst : classes.zipIdx.map Prod.fst = classes := List.zipIdx_map_fst 0 classes
  conv => rhs; rw [← hfst]
  rw [List.filterMap_map, List.map_map, List.map_map, ← List.filterMap_eq_map]
  rfl

theorem filterMap_makes {p : Property} {statements : List Statement} (h : p.Makes statements) :
    statements.filterMap t.read? =
      p.listHandle?.toList.map t.makeList ++ p.classHandles.map t.copyString ++
        p.listHandle?.toList.map (t.handList (Variable.type p.name)) := by
  cases h with
  | untyped ht =>
    simp [Property.listHandle?, Property.classHandles, Property.classes, ht, read?]
  | mask ht hclasses =>
    simp [Property.listHandle?_of_nil hclasses, Property.classHandles, hclasses, read?]
  | cls ht =>
    simp [Property.listHandle?, Property.classHandles, Property.classes_eq ht, ht,
      DeclaredType.classes, read?]
  | union ht hclasses =>
    rw [Property.listHandle?_of_union ht hclasses, Property.classHandles]
    simp only [List.filterMap_append, filterMap_setSlots]
    rfl

theorem filterMap_declareProperty {interner : Interner} {p : Property}
    {statements : List Statement} (h : declareProperty interner p = .ok statements) :
    statements.filterMap t.read? = t.ofProperty p := by
  obtain ⟨value, make, text, hvalue, hmake, rfl⟩ := declareProperty_cases h
  have hhold : (p.classes.map fun q => Statement.holdString (Variable.cls p.name q)
      (text q)).filterMap t.read? = p.classHandles.map t.holdString := by
    rw [Property.classHandles, List.filterMap_map, List.map_map, ← List.filterMap_eq_map]
    rfl
  have hrelease : (p.classes.map fun q => Statement.releaseString
      (Variable.cls p.name q)).filterMap t.read? = p.classHandles.map t.releaseString := by
    rw [Property.classHandles, List.filterMap_map, List.map_map, ← List.filterMap_eq_map]
    rfl
  simp only [List.filterMap_append, List.filterMap_cons, t.filterMap_storeDefault hvalue, hhold,
    t.filterMap_makes hmake, hrelease, ofProperty]
  simp [read?, Property.declaration]

theorem filterMap_declareProperties {interner : Interner} {properties : List Property}
    {statements : List Statement} (h : declareProperties interner properties = .ok statements) :
    statements.filterMap t.read? = properties.flatMap t.ofProperty := by
  rw [List.filterMap_eq_flatMap_toList]
  refine flatMap_declareProperties h fun p block hblock => ?_
  rw [← List.filterMap_eq_flatMap_toList, t.filterMap_declareProperty hblock]

structure Tells (handle : α → String) : Prop where
  makeString : ∀ own, handle (t.makeString own) = own
  holdString : ∀ own, handle (t.holdString own) = own
  giveString : ∀ value own, handle (t.giveString value own) = own
  copyString : ∀ own, handle (t.copyString own) = own
  makeList : ∀ own, handle (t.makeList own) = own
  handList : ∀ type own, handle (t.handList type own) = own
  declare : ∀ own value, handle (t.declare own value) = own
  releaseString : ∀ own, handle (t.releaseString own) = own

theorem Tells.mem_handles {t : Trace α} {handle : α → String} (h : t.Tells handle)
    {p : Property} {x : α} (hx : x ∈ t.ofProperty p) : handle x ∈ p.handles := by
  have htext : ∀ own ∈ p.textHandle?.toList, own ∈ p.handles :=
    fun own hown => List.mem_append_left _ (List.mem_append_left _ hown)
  have hheld : ∀ own ∈ Variable.name p.name :: p.classHandles, own ∈ p.handles :=
    fun own hown => List.mem_append_left _ (List.mem_append_right _ hown)
  have hlist : ∀ own ∈ p.listHandle?.toList, own ∈ p.handles :=
    fun own hown => List.mem_append_right _ hown
  simp only [ofProperty, List.mem_append, List.mem_flatMap, List.mem_cons, List.mem_map,
    List.not_mem_nil, or_false] at hx
  rcases hx with ((⟨own, hown, rfl | rfl⟩ | rfl | ⟨own, hown, rfl⟩) |
    (⟨own, hown, rfl⟩ | ⟨own, hown, rfl⟩) | ⟨own, hown, rfl⟩) | rfl | ⟨own, hown, rfl⟩
  · rw [h.makeString]
    exact htext own hown
  · rw [h.giveString]
    exact htext own hown
  · rw [h.holdString]
    exact hheld _ List.mem_cons_self
  · rw [h.holdString]
    exact hheld own (List.mem_cons_of_mem _ hown)
  · rw [h.makeList]
    exact hlist own hown
  · rw [h.copyString]
    exact hheld own (List.mem_cons_of_mem _ hown)
  · rw [h.handList]
    exact hlist own hown
  · rw [h.declare]
    exact hheld _ List.mem_cons_self
  · rw [h.releaseString]
    exact hheld own (List.mem_cons.mpr hown)

end Trace

/-! What the statements do to the ownership of handles. -/

def ownership : Trace Event where
  makeString := .allocate
  holdString := .acquire
  giveString value handle := .transfer handle value
  copyString := (.consume · Statement.classMacro)
  makeList := .allocate
  handList type list := .transfer list type
  declare name _ := .consume name Statement.declareMacro
  releaseString := .release

theorem ownership_tells : ownership.Tells Event.handle := by
  constructor <;> intros <;> rfl

theorem ownership_ofProperty (p : Property) : ownership.ofProperty p = p.events := by
  simp [Trace.ofProperty, Property.events, ownership]

theorem events_eq (s : Statement) : s.events = (ownership.read? s).toList := by
  cases s <;> rfl

theorem events_declareProperties {interner : Interner} {properties : List Property}
    {statements : List Statement} (h : declareProperties interner properties = .ok statements) :
    statements.flatMap (·.events) = properties.flatMap (·.events) := by
  simp only [events_eq, ← ownership_ofProperty]
  rw [← List.filterMap_eq_flatMap_toList]
  exact ownership.filterMap_declareProperties h

theorem events_registerClass (c : Class) : (registerClass c).flatMap (·.events) = [] := by
  unfold registerClass
  dsimp only
  split <;> split <;> rfl

end Header

namespace Ownership

theorem on_map_of_nodup {f : String → Event} (hf : ∀ h, (f h).handle = h) (handle : String)
    {handles : List String} (nodup : handles.Nodup) :
    on handle (handles.map f) = if handle ∈ handles then [f handle] else [] := by
  induction handles with
  | nil => rfl
  | cons first rest ih =>
    obtain ⟨fresh, hrest⟩ := List.nodup_cons.mp nodup
    by_cases h : first = handle
    · subst h
      have hself := on_cons_self (f first) (rest.map f)
      rw [hf, ih hrest, if_neg fresh] at hself
      simpa using hself
    · rw [List.map_cons, on_cons_of_ne (by rwa [hf]), ih hrest]
      simp [Ne.symm h]

theorem on_eq_nil_of_not_mem {handle : String} {events : List Event}
    (h : handle ∉ events.map Event.handle) : on handle events = [] := by
  unfold on
  rw [List.filter_eq_nil_iff]
  intro e he hsame
  exact h (List.mem_map.mpr ⟨e, he, by simpa using hsame⟩)

end Ownership

namespace Property

theorem created_events (p : Property) : created p.events = p.handles := by
  unfold events handles created
  cases p.textHandle? <;> cases p.listHandle? <;>
    simp [List.filterMap_map, List.filterMap_cons, Event.created?, Function.comp_def]

theorem handle_mem_handles {p : Property} {handle : String}
    (h : handle ∈ p.events.map Event.handle) : handle ∈ p.handles := by
  obtain ⟨e, he, rfl⟩ := List.mem_map.mp h
  rw [← ownership_ofProperty] at he
  exact ownership_tells.mem_handles he

theorem on_textEvents (p : Property) (handle target : String) :
    on handle (p.textHandle?.toList.flatMap
        fun text => [.allocate text, .transfer text target]) =
      if handle ∈ p.textHandle?.toList then [.allocate handle, .transfer handle target]
      else [] := by
  cases p.textHandle? with
  | none => rfl
  | some text =>
    by_cases h : text = handle
    · subst h
      simp [on, Event.handle]
    · simp [on, Event.handle, h, Ne.symm h]

/-- A handle belongs to one of four groups, and each group has its own sequence of events. -/
theorem balanced_events {p : Property} (nodup : p.handles.Nodup) (handle : String) :
    Balanced handle (on handle p.events) := by
  obtain ⟨hfirst, hlist, hlists⟩ := List.nodup_append.mp nodup
  obtain ⟨-, hheld, htexts⟩ := List.nodup_append.mp hfirst
  obtain ⟨hname, hclass⟩ := List.nodup_cons.mp hheld
  have hacquire := on_map_of_nodup (f := .acquire) (fun _ => rfl) handle hclass
  have hallocate := on_map_of_nodup (f := .allocate) (fun _ => rfl) handle hlist
  have hconsume := on_map_of_nodup (f := (.consume · Statement.classMacro)) (fun _ => rfl) handle
    hclass
  have htransfer := on_map_of_nodup (f := (.transfer · (Variable.type p.name))) (fun _ => rfl)
    handle hlist
  have hrelease := on_map_of_nodup (f := .release) (fun _ => rfl) handle hclass
  unfold events
  simp only [on_append, on_textEvents, on_cons, on_nil, hacquire, hallocate, hconsume, htransfer,
    hrelease, Event.handle]
  by_cases ht : handle ∈ p.textHandle?.toList
  · have hn : Variable.name p.name ≠ handle := Ne.symm (htexts _ ht _ List.mem_cons_self)
    have hc : handle ∉ p.classHandles := fun h => htexts _ ht _ (List.mem_cons_of_mem _ h) rfl
    have hl : handle ∉ p.listHandle?.toList :=
      fun h => hlists _ (List.mem_append_left _ ht) _ h rfl
    simpa [ht, hn, hc, hl] using Balanced.handed (Variable.value p.name)
  · by_cases hl : handle ∈ p.listHandle?.toList
    · have hn : Variable.name p.name ≠ handle := hlists _ (by simp) _ hl
      have hc : handle ∉ p.classHandles := fun h => hlists _ (by simp [h]) _ hl rfl
      simpa [ht, hn, hc, hl] using Balanced.handed (Variable.type p.name)
    · by_cases hc : handle ∈ p.classHandles
      · have hn : Variable.name p.name ≠ handle := fun h => hname (h ▸ hc)
        simpa [ht, hn, hc, hl] using Balanced.held [Statement.classMacro] (by simp)
      · by_cases hn : Variable.name p.name = handle
        · simpa [ht, hn, hc, hl] using Balanced.held [Statement.declareMacro] (by simp)
        · simpa [ht, hn, hc, hl] using Balanced.unused

theorem on_events_eq_nil {p : Property} {handle : String} (h : handle ∉ p.handles) :
    on handle p.events = [] :=
  Ownership.on_eq_nil_of_not_mem fun hm => h (handle_mem_handles hm)

end Property

namespace Ownership

theorem created_append (first second : List Event) :
    created (first ++ second) = created first ++ created second :=
  List.filterMap_append

theorem created_properties (properties : List Property) :
    created (properties.flatMap (·.events)) = properties.flatMap (·.handles) := by
  induction properties with
  | nil => rfl
  | cons p rest ih =>
    rw [List.flatMap_cons, created_append, ih, Property.created_events, List.flatMap_cons]

theorem on_properties_eq_nil {properties : List Property} {handle : String}
    (h : handle ∉ properties.flatMap (·.handles)) :
    on handle (properties.flatMap (·.events)) = [] := by
  induction properties with
  | nil => rfl
  | cons p rest ih =>
    rw [List.flatMap_cons, List.mem_append, not_or] at h
    rw [List.flatMap_cons, on_append, Property.on_events_eq_nil h.1, ih h.2, List.nil_append]

theorem balanced_properties {properties : List Property}
    (nodup : (properties.flatMap (·.handles)).Nodup) (handle : String) :
    Balanced handle (on handle (properties.flatMap (·.events))) := by
  induction properties with
  | nil => exact .unused
  | cons p rest ih =>
    rw [List.flatMap_cons] at nodup
    obtain ⟨hfirst, hrest, hdisjoint⟩ := List.nodup_append.mp nodup
    rw [List.flatMap_cons, on_append]
    by_cases hp : handle ∈ p.handles
    · rw [on_properties_eq_nil fun h => hdisjoint _ hp _ h rfl, List.append_nil]
      exact Property.balanced_events hfirst handle
    · rw [Property.on_events_eq_nil hp, List.nil_append]
      exact ih hrest

/-- The ownership of all properties of a class is balanced exactly when no two of the handles they
create have the same name. -/
theorem check_properties_iff (properties : List Property) :
    check (properties.flatMap (·.events)) = .ok () ↔ (properties.flatMap (·.handles)).Nodup := by
  constructor
  · intro h
    rw [← created_properties]
    exact nodup_created h
  · intro h
    rw [check_eq_ok_iff_balanced]
    exact balanced_properties h

end Ownership

end ExtensionHeader
