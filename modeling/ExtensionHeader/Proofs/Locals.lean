import ExtensionHeader.Proofs.Handles
import ExtensionHeader.Proofs.Parameters
import Mathlib.Data.List.Perm.Basic

/-! The variables of a registration routine. The check of ownership keeps the handles of a routine
apart, but it does not see the values and types of properties. A handle that holds a class for one
property may therefore have the name of the value or of the type of another property, and only
then are two variables of one routine the same. -/
namespace ExtensionHeader

open Header

namespace Header

namespace Variable

def endings : List String :=
  ["_default_value", "_default_value_str", "_name", "_type", "_type_list"]

theorem ending_unique : ∀ s ∈ endings, ∀ t ∈ endings,
    s.toList.reverse.take 2 = t.toList.reverse.take 2 → s = t := by
  decide

theorem take_append_ending (x : String) {s : String} (hs : s ∈ endings) :
    (x ++ s).toList.reverse.take 2 = s.toList.reverse.take 2 := by
  have hlength : ∀ s ∈ endings, 2 ≤ s.toList.reverse.length := by decide
  rw [String.toList_append, List.reverse_append, List.take_append_of_le_length (hlength s hs)]

theorem ending_inj {x y s t : String} (hs : s ∈ endings) (ht : t ∈ endings)
    (h : x ++ s = y ++ t) : x = y ∧ s = t := by
  have hst : s = t := by
    apply ending_unique s hs t ht
    rw [← take_append_ending x hs, h, take_append_ending y ht]
  rw [hst, String.append_left_inj] at h
  exact ⟨h, hst⟩

end Variable

def declarators : List String :=
  ["zval ", "zend_string *", "zend_type ", "zend_type_list *", "zend_class_entry ",
    "zend_class_entry ce, *"]

theorem Statement.text_of_declares {s : Statement} {name : String} (h : name ∈ s.declares) :
    ∃ declarator ∈ declarators, ∃ rest, s.text = declarator ++ name ++ rest := by
  cases s with
  | declareEntry =>
    rcases List.mem_cons.mp h with rfl | h
    · exact ⟨"zend_class_entry ", by decide, ", *class_entry;", by decide⟩
    · cases List.mem_singleton.mp h
      exact ⟨"zend_class_entry ce, *", by decide, ";", by decide⟩
  | declareValue value =>
    cases List.mem_singleton.mp h
    exact ⟨"zval ", by decide, ";", rfl⟩
  | makeString handle text =>
    cases List.mem_singleton.mp h
    exact ⟨"zend_string *", by decide, " = " ++ newString text ++ ";", by
      simp only [← String.append_assoc]; rfl⟩
  | holdString handle text =>
    cases List.mem_singleton.mp h
    exact ⟨"zend_string *", by decide, " = " ++ newString text ++ ";", by
      simp only [← String.append_assoc]; rfl⟩
  | untyped type =>
    cases List.mem_singleton.mp h
    exact ⟨"zend_type ", by decide, " = (zend_type) ZEND_TYPE_INIT_NONE(0);", rfl⟩
  | maskType type mask =>
    cases List.mem_singleton.mp h
    exact ⟨"zend_type ", by decide,
      " = (zend_type) ZEND_TYPE_INIT_MASK(" ++ mask.expression ++ ");", by
      simp only [← String.append_assoc]; rfl⟩
  | classType type handle =>
    cases List.mem_singleton.mp h
    exact ⟨"zend_type ", by decide, " = " ++ newClassType handle ++ ";", by
      simp only [← String.append_assoc]; rfl⟩
  | makeList list count =>
    cases List.mem_singleton.mp h
    exact ⟨"zend_type_list *", by decide,
      " = malloc(ZEND_TYPE_LIST_SIZE(" ++ toString count ++ "));", by
      simp only [← String.append_assoc]; rfl⟩
  | unionType type list mask =>
    cases List.mem_singleton.mp h
    exact ⟨"zend_type ", by decide,
      " = ZEND_TYPE_INIT_UNION(" ++ list ++ ", " ++ mask.expression ++ ");", by
      simp only [← String.append_assoc]; rfl⟩
  | _ => exact absurd h List.not_mem_nil

end Header

def Property.locals (p : Property) : List String :=
  Variable.value p.name :: p.textHandle?.toList ++ Variable.name p.name :: p.classHandles ++
    p.listHandle?.toList ++ [Variable.type p.name]

namespace Header

theorem declares_storeDefault {p : Property} {statements : List Statement}
    (h : storeDefault p = .ok statements) :
    statements.flatMap (·.declares) = p.textHandle?.toList := by
  rcases storeDefault_cases h with ⟨text, htext, rfl⟩ | ⟨initial, htext, rfl⟩ <;> rw [htext] <;> rfl

theorem declares_makes {p : Property} {statements : List Statement} (h : p.Makes statements) :
    statements.flatMap (·.declares) = p.listHandle?.toList ++ [Variable.type p.name] := by
  cases h with
  | untyped ht | cls ht => simp [Property.listHandle?, ht, Statement.declares]
  | mask ht hclasses => simp [Property.listHandle?_of_nil hclasses, Statement.declares]
  | union ht hclasses =>
    have hslots : (p.classes.zipIdx.map fun entry => Statement.setSlot (Variable.list p.name)
        entry.2 (Variable.cls p.name entry.1)).flatMap (·.declares) = [] := by
      rw [List.flatMap_eq_nil_iff]
      intro s hs
      obtain ⟨slot, -, rfl⟩ := List.mem_map.mp hs
      rfl
    rw [Property.listHandle?_of_union ht hclasses]
    simp only [List.flatMap_append, hslots]
    rfl

theorem declares_declareProperty {interner : Interner} {p : Property}
    {statements : List Statement} (h : declareProperty interner p = .ok statements) :
    statements.flatMap (·.declares) = p.locals := by
  obtain ⟨value, make, text, hvalue, hmake, rfl⟩ := declareProperty_cases h
  have hhold : (p.classes.map fun q => Statement.holdString (Variable.cls p.name q)
      (text q)).flatMap (·.declares) = p.classHandles := by
    rw [List.flatMap_map]
    exact List.map_eq_flatMap.symm
  have hrelease : (p.classes.map fun q => Statement.releaseString
      (Variable.cls p.name q)).flatMap (·.declares) = [] := by
    simp [List.flatMap_eq_nil_iff, Statement.declares]
  simp only [List.flatMap_append, List.flatMap_cons, declares_storeDefault hvalue, hhold,
    declares_makes hmake, hrelease, Property.locals]
  simp [Statement.declares, Property.declaration]

theorem declares_declareProperties {interner : Interner} {properties : List Property}
    {statements : List Statement} (h : declareProperties interner properties = .ok statements) :
    statements.flatMap (·.declares) = properties.flatMap (·.locals) :=
  flatMap_declareProperties h fun _ _ => declares_declareProperty

theorem declares_registerClass (c : Class) :
    (registerClass c).flatMap (·.declares) = ["ce", "class_entry"] := by
  unfold registerClass
  dsimp only
  split <;> split <;> rfl

theorem locals_ofClass {interner : Interner} {c : Class} {r : Routine}
    (h : Routine.ofClass interner c = .ok r) :
    r.locals = r.parameters.map Identifier.classHandle ++
      (["ce", "class_entry"] ++ c.properties.flatMap (·.locals)) := by
  obtain ⟨statements, hs, -, rfl⟩ := ofClass_eq_ok h
  simp only [Routine.locals, List.flatMap_append, declares_registerClass,
    declares_declareProperties hs]
  simp [Statement.declares]

end Header

/-- A handle that holds a class for `p` has the name of the value or of the type of `r`. -/
def Property.Shadows (p r : Property) : Prop :=
  ∃ q ∈ p.classes,
    Variable.cls p.name q = Variable.value r.name ∨ Variable.cls p.name q = Variable.type r.name

namespace Property

def cells (p : Property) : List String := [Variable.value p.name, Variable.type p.name]

theorem locals_perm (p : Property) : p.locals.Perm (p.handles ++ p.cells) := by
  have hmove : (Variable.value p.name :: (p.handles ++ [Variable.type p.name])).Perm
      (p.handles ++ Variable.value p.name :: [Variable.type p.name]) := List.perm_middle.symm
  unfold handles at hmove
  unfold locals handles cells
  simpa only [List.cons_append, List.append_assoc] using hmove

theorem nodup_cells {properties : List Property} (h : (properties.map (·.name)).Nodup) :
    (properties.flatMap cells).Nodup := by
  have hvalue : "_default_value" ∈ Variable.endings := by decide
  have htype : "_type" ∈ Variable.endings := by decide
  rw [List.nodup_flatMap]
  constructor
  · intro p _
    have hne : Variable.value p.name ≠ Variable.type p.name := by
      intro heq
      have hending := (Variable.ending_inj hvalue htype heq).2
      contradiction
    simpa [cells] using hne
  · apply (List.pairwise_map.mp h).imp
    intro p r hname cell hp hr
    have hending : ∀ {s : Property}, cell ∈ s.cells →
        ∃ ending ∈ Variable.endings, cell = Variable.stem s.name ++ ending := by
      intro s hs
      rcases List.mem_cons.mp hs with rfl | hs
      · exact ⟨_, hvalue, rfl⟩
      · cases List.mem_singleton.mp hs
        exact ⟨_, htype, rfl⟩
    obtain ⟨s, hs, hps⟩ := hending hp
    obtain ⟨t, ht, hrt⟩ := hending hr
    exact hname (Variable.stem_inj (Variable.ending_inj hs ht (hps.symm.trans hrt)).1)

theorem not_mem_cells_of_mem_plainHandles {p r : Property} {handle : String}
    (h : handle ∈ p.plainHandles) : handle ∉ r.cells := by
  have hsuffix : ∀ s ∈ Variable.suffixes, s ∈ Variable.endings ∧ s ≠ "_default_value" ∧
      s ≠ "_type" := by
    decide
  obtain ⟨s, hs, rfl⟩ := suffix_of_mem_plainHandles h
  obtain ⟨hending, hvalue, htype⟩ := hsuffix s hs
  intro hcell
  rcases List.mem_cons.mp hcell with heq | hcell
  · exact hvalue (Variable.ending_inj hending (by decide) heq).2
  · exact htype (Variable.ending_inj hending (by decide) (List.mem_singleton.mp hcell)).2

theorem shadows_iff (p r : Property) : p.Shadows r ↔ ¬ p.handles.Disjoint r.cells := by
  have hcell : ∀ x, x ∈ r.cells ↔ x = Variable.value r.name ∨ x = Variable.type r.name := by
    simp [cells]
  constructor
  · rintro ⟨q, hq, h⟩ hdisjoint
    apply hdisjoint _ ((hcell _).mpr h)
    exact (p.mem_handles_iff _).mpr (.inr (List.mem_map_of_mem hq))
  · intro h
    simp only [List.Disjoint, not_forall] at h
    obtain ⟨handle, hhandle, hmem, -⟩ := h
    rcases (p.mem_handles_iff handle).mp hhandle with hplain | hclass
    · exact absurd hmem (not_mem_cells_of_mem_plainHandles hplain)
    · obtain ⟨q, hq, rfl⟩ := List.mem_map.mp hclass
      exact ⟨q, hq, (hcell _).mp hmem⟩

end Property

theorem Class.Accepted.nodup_flatMap_locals_iff {c : Class} (h : c.Accepted)
    (hhandles : c.handles.Nodup) :
    (c.properties.flatMap (·.locals)).Nodup ↔
      ∀ p ∈ c.properties, ∀ r ∈ c.properties, ¬ p.Shadows r := by
  have hperm : (c.properties.flatMap (·.locals)).Perm
      (c.handles ++ c.properties.flatMap (·.cells)) := by
    refine List.Perm.trans ?_ (List.flatMap_append_perm _ _ _).symm
    exact List.Perm.flatMap_left _ fun p _ => p.locals_perm
  rw [hperm.nodup_iff, List.nodup_append']
  simp only [Property.shadows_iff, not_not]
  constructor
  · rintro ⟨-, -, hdisjoint⟩ p hp r hr x hx hxr
    exact hdisjoint (List.mem_flatMap.mpr ⟨p, hp, hx⟩) (List.mem_flatMap.mpr ⟨r, hr, hxr⟩)
  · intro hall
    refine ⟨hhandles, Property.nodup_cells h.properties, ?_⟩
    intro x hx hxr
    obtain ⟨p, hp, hx⟩ := List.mem_flatMap.mp hx
    obtain ⟨r, hr, hxr⟩ := List.mem_flatMap.mp hxr
    exact hall p hp r hr hx hxr

theorem Property.take_of_mem_locals {p : Property} {name : String} (h : name ∈ p.locals) :
    name.toList.take 2 = "pr".toList := by
  have hstem : ∀ rest : String, ("property_" ++ rest).toList.take 2 = "pr".toList := by
    intro rest
    rw [String.toList_append, List.take_append_of_le_length (by decide)]
    decide
  rcases List.mem_append.mp (p.locals_perm.mem_iff.mp h) with h | h
  · rcases (p.mem_handles_iff name).mp h with h | h
    · obtain ⟨s, -, rfl⟩ := suffix_of_mem_plainHandles h
      rw [Variable.stem, String.append_assoc]
      exact hstem _
    · obtain ⟨q, -, rfl⟩ := List.mem_map.mp h
      rw [Variable.cls, Variable.stem, String.append_assoc, String.append_assoc]
      exact hstem _
  · rcases List.mem_cons.mp h with rfl | h
    · rw [Variable.value, Variable.stem, String.append_assoc]
      exact hstem _
    · cases List.mem_singleton.mp h
      rw [Variable.type, Variable.stem, String.append_assoc]
      exact hstem _

theorem Identifier.take_classHandle (q : QualifiedName) :
    (classHandle q).toList.take 12 = "class_entry_".toList := by
  unfold classHandle
  rw [String.toList_append, List.take_append_of_le_length (by decide)]
  decide

namespace Header

theorem nodup_frame {handles locals : List String} (hhandles : handles.Nodup)
    (hhandle : ∀ name ∈ handles, name.toList.take 12 = "class_entry_".toList)
    (hlocal : ∀ name ∈ locals, name.toList.take 2 = "pr".toList) :
    (handles ++ (["ce", "class_entry"] ++ locals)).Nodup ↔ locals.Nodup := by
  have hfixed : ∀ name ∈ ["ce", "class_entry"], name.toList.take 12 ≠ "class_entry_".toList ∧
      name.toList.take 2 ≠ "pr".toList := by
    decide
  rw [List.nodup_append', List.nodup_append']
  constructor
  · exact fun h => h.2.1.2.1
  · intro h
    refine ⟨hhandles, ⟨by decide, h, ?_⟩, ?_⟩
    · intro name hmem hname
      exact (hfixed name hmem).2 (hlocal name hname)
    · intro name hname hmem
      rcases List.mem_append.mp hmem with hmem | hmem
      · exact (hfixed name hmem).1 (hhandle name hname)
      · have hshort := congrArg (List.take 2) (hhandle name hname)
        rw [List.take_take, show min 2 12 = 2 from rfl, hlocal name hmem] at hshort
        contradiction

/-- The variables of a routine differ exactly if no handle of a class has the name of a value or
of a type. -/
theorem nodup_locals_iff {config : Config} {e : Extension} {out : Generated}
    (h : generate config e = .ok out) :
    ∃ ss, sections config.options e = .ok ss ∧ out.text = render ss ∧
      ∀ c ∈ e.classes, ∃ r, .routine r ∈ ss ∧ Routine.ofClass e.interner c = .ok r ∧
        r.locals = r.parameters.map Identifier.classHandle ++
          (["ce", "class_entry"] ++ c.properties.flatMap (·.locals)) ∧
        (∀ s ∈ r.body, ∀ name ∈ s.declares,
          ∃ declarator ∈ declarators, ∃ rest, s.text = declarator ++ name ++ rest) ∧
        (r.locals.Nodup ↔ ∀ p ∈ c.properties, ∀ other ∈ c.properties, ¬ p.Shadows other) := by
  obtain ⟨herrors, -, hemit⟩ := generate_eq_ok_iff.mp h
  have accepted := Validation.accepted_of_errors herrors
  have hcollisions := (Validation.errors_eq_nil herrors).2.2
  obtain ⟨ss, hss, htext⟩ := map_eq_ok_iff.mp hemit
  refine ⟨ss, hss, htext.symm, fun c hc => ?_⟩
  obtain ⟨r, hmem, hr⟩ := routine_mem_sections hss hc
  have hlocals := locals_ofClass hr
  obtain ⟨statements, -, hcheck, hshape⟩ := ofClass_eq_ok hr
  refine ⟨r, hmem, hr, hlocals, fun s _ name hname => Statement.text_of_declares hname, ?_⟩
  have hparameters : (r.parameters.map Identifier.classHandle).Nodup := by
    rw [hshape]
    exact Class.nodup_parameters hcollisions hc
  rw [hlocals, nodup_frame hparameters]
  · exact (accepted.cls c hc).nodup_flatMap_locals_iff
      ((Ownership.check_properties_iff c.properties).mp hcheck)
  · intro name hname
    obtain ⟨q, -, rfl⟩ := List.mem_map.mp hname
    exact Identifier.take_classHandle q
  · intro name hname
    obtain ⟨p, -, hname⟩ := List.mem_flatMap.mp hname
    exact Property.take_of_mem_locals hname

theorem nodup_locals_catalogue :
    (∃ out, generate {} catalogue = .ok out) ∧ ∀ c ∈ catalogue.classes, ∃ r,
      Routine.ofClass catalogue.interner c = .ok r ∧ r.locals.Nodup := by
  have hplain : ∀ c ∈ catalogue.classes, ∀ p ∈ c.properties, ∀ other ∈ c.properties,
      ¬ p.Shadows other := by
    unfold Property.Shadows
    decide +kernel
  have hgenerated : ∃ out, generate {} catalogue = .ok out :=
    exists_generate_eq_ok (by decide +kernel) (by decide +kernel)
  refine ⟨hgenerated, fun c hc => ?_⟩
  obtain ⟨out, hout⟩ := hgenerated
  obtain ⟨ss, -, -, hclasses⟩ := nodup_locals_iff hout
  obtain ⟨r, -, hr, -, -, hiff⟩ := hclasses c hc
  exact ⟨r, hr, hiff.mpr (hplain c hc)⟩

/-- The handle of the class `type` for `a` is also the type of `a_class`. -/
def shadowed : Extension where
  classes := [{
    name := ⟨[], "Field"⟩
    properties := [{ name := "a", type? := some (.cls ⟨[], "type"⟩) }, { name := "a_class" }] }]

theorem not_nodup_locals_shadowed :
    (∃ out, generate {} shadowed = .ok out) ∧ ∀ c ∈ shadowed.classes, ∃ r,
      Routine.ofClass shadowed.interner c = .ok r ∧ ¬ r.locals.Nodup := by
  have herrors : (shadowed.validate .lenient).errors = [] := by decide +kernel
  have hroutines : (routines shadowed.interner shadowed.classes).isOk := by decide +kernel
  refine ⟨exists_generate_eq_ok herrors hroutines, fun c hc => ?_⟩
  obtain ⟨r, hr⟩ := ofClass_of_isOk_routines hroutines hc
  refine ⟨r, hr, ?_⟩
  rw [locals_ofClass hr]
  cases List.mem_singleton.mp hc
  intro hnodup
  have hlocals := (List.nodup_append'.mp (List.nodup_append'.mp hnodup).2.1).2.1
  contradiction

end Header

end ExtensionHeader
