import ExtensionHeader.Proofs.Emission
import Mathlib.Data.List.Pairwise

/-! The names of handles. A handle is built from the name of its property, so the handles of one
property differ, and handles of two properties can only be equal when one of them holds the name of
a class: `property_a_class_name` holds the class `name` for the property `a`, and the name of the
property `a_class`. Validation compares neither, so such a class passes it and is not emitted. -/
namespace ExtensionHeader

open Header

namespace Header.Variable

def suffixes : List String := ["_default_value_str", "_name", "_type_list"]

theorem suffix_unique : ∀ s ∈ suffixes, ∀ t ∈ suffixes,
    s.toList.getLast? = t.toList.getLast? → s = t := by
  decide

theorem suffix_not_class : ∀ s ∈ suffixes, s.toList.take 7 ≠ "_class_".toList := by
  decide

theorem getLast?_append_suffix (x : String) {s : String} (hs : s ∈ suffixes) :
    (x ++ s).toList.getLast? = s.toList.getLast? := by
  have hlast : ∀ s ∈ suffixes, s.toList.getLast?.isSome := by decide
  rw [String.toList_append, List.getLast?_append, Option.or_of_isSome (hlast s hs)]

theorem append_suffix_inj {x y s t : String} (hs : s ∈ suffixes) (ht : t ∈ suffixes)
    (h : x ++ s = y ++ t) : x = y := by
  -- The last character tells the suffixes apart.
  have hlast : s.toList.getLast? = t.toList.getLast? := by
    rw [← getLast?_append_suffix x hs, h, getLast?_append_suffix y ht]
  rw [suffix_unique s hs t ht hlast] at h
  exact (String.append_left_inj t).mp h

theorem stem_inj {p q : String} (h : stem p = stem q) : p = q :=
  (String.append_right_inj "property_").mp h

theorem cls_inj {p : String} {q r : QualifiedName} (h : cls p q = cls p r) :
    Identifier.ofName q = Identifier.ofName r :=
  (String.append_right_inj (stem p ++ "_class_")).mp h

theorem cls_ne_append_suffix (p : String) (q : QualifiedName) {s : String} (hs : s ∈ suffixes) :
    cls p q ≠ stem p ++ s := by
  intro h
  unfold cls at h
  rw [String.append_assoc, String.append_right_inj] at h
  apply suffix_not_class s hs
  rw [← h, String.toList_append]
  simp

end Header.Variable

namespace Property

def plainHandles (p : Property) : List String :=
  p.textHandle?.toList ++ Variable.name p.name :: p.listHandle?.toList

theorem mem_handles_iff (p : Property) (handle : String) :
    handle ∈ p.handles ↔ handle ∈ p.plainHandles ∨ handle ∈ p.classHandles := by
  simp only [handles, plainHandles, List.cons_append, List.append_assoc, List.mem_append,
    List.mem_cons]
  tauto

theorem textHandle?_eq_some {p : Property} {handle : String} (h : p.textHandle? = some handle) :
    handle = Variable.stem p.name ++ "_default_value_str" := by
  unfold textHandle? at h
  split at h
  · cases h
    exact String.append_assoc
  · contradiction

theorem listHandle?_eq_some {p : Property} {handle : String} (h : p.listHandle? = some handle) :
    handle = Variable.stem p.name ++ "_type_list" := by
  unfold listHandle? at h
  split at h
  · split at h
    · contradiction
    · cases h
      rfl
  · contradiction

theorem suffix_of_mem_plainHandles {p : Property} {handle : String} (h : handle ∈ p.plainHandles) :
    ∃ suffix ∈ Variable.suffixes, handle = Variable.stem p.name ++ suffix := by
  rcases List.mem_append.mp h with h | h
  · exact ⟨_, by decide, textHandle?_eq_some (by simpa using h)⟩
  · rcases List.mem_cons.mp h with rfl | h
    · exact ⟨"_name", by decide, rfl⟩
    · exact ⟨_, by decide, listHandle?_eq_some (by simpa using h)⟩

theorem name_eq_of_mem_plainHandles {p q : Property} {handle : String}
    (hp : handle ∈ p.plainHandles) (hq : handle ∈ q.plainHandles) : p.name = q.name := by
  obtain ⟨s, hs, rfl⟩ := suffix_of_mem_plainHandles hp
  obtain ⟨t, ht, h⟩ := suffix_of_mem_plainHandles hq
  exact Variable.stem_inj (Variable.append_suffix_inj hs ht h)

theorem nodup_plainHandles (p : Property) : p.plainHandles.Nodup := by
  have hnames : (Variable.suffixes.map (Variable.stem p.name ++ ·)).Nodup := by
    apply List.Nodup.map
    · intro s t h
      exact (String.append_right_inj _).mp h
    · decide
  refine List.Nodup.sublist ?_ hnames
  have htext : p.textHandle?.toList.Sublist [Variable.stem p.name ++ "_default_value_str"] := by
    cases h : p.textHandle? with
    | none => exact List.nil_sublist _
    | some handle =>
      rw [textHandle?_eq_some h]
      exact List.Sublist.refl _
  have hlist : p.listHandle?.toList.Sublist [Variable.stem p.name ++ "_type_list"] := by
    cases h : p.listHandle? with
    | none => exact List.nil_sublist _
    | some handle =>
      rw [listHandle?_eq_some h]
      exact List.Sublist.refl _
  exact htext.append (hlist.cons_cons (Variable.name p.name))

theorem disjoint_plainHandles_classHandles (p : Property) :
    p.plainHandles.Disjoint p.classHandles := by
  intro handle hplain hclass
  obtain ⟨suffix, hs, heq⟩ := suffix_of_mem_plainHandles hplain
  obtain ⟨q, -, rfl⟩ := List.mem_map.mp hclass
  exact Variable.cls_ne_append_suffix p.name q hs heq

theorem nodup_handles_iff_classes (p : Property) : p.handles.Nodup ↔ p.classHandles.Nodup := by
  have hperm : p.handles.Perm (p.plainHandles ++ p.classHandles) := by
    unfold handles plainHandles
    rw [List.append_assoc, List.append_assoc]
    apply List.Perm.append_left
    apply List.Perm.cons
    exact List.perm_append_comm
  rw [hperm.nodup_iff, List.nodup_append']
  constructor
  · exact fun h => h.2.1
  · exact fun h => ⟨p.nodup_plainHandles, h, p.disjoint_plainHandles_classHandles⟩

end Property

theorem Validation.nodup_ofUnionClass {location : Location} {text : String}
    {classes : List QualifiedName}
    (h : Sequence.flatMapEarlier (ofUnionClass location text) classes = []) :
    (classes.map Identifier.ofName).Nodup :=
  (ofUnionClasses_eq_nil_iff.mp h).2

namespace Property.Accepted

variable {owner : QualifiedName} {p : Property}

theorem nodup_handles (h : p.Accepted owner) : p.handles.Nodup := by
  rw [nodup_handles_iff_classes]
  unfold classHandles classes
  cases ht : p.type? with
  | none => exact List.nodup_nil
  | some type =>
    cases type with
    | scalar kind => exact List.nodup_nil
    | cls q => exact List.nodup_singleton _
    | union u =>
      have hunion := h.ofUnion_eq_nil ht
      have hempty := h.isEmpty_eq_false ht
      simp only [Validation.ofUnion, hempty, Bool.false_eq_true, if_false,
        List.append_eq_nil_iff] at hunion
      have hids := Validation.nodup_ofUnionClass hunion.1.1.1
      exact Sequence.nodup_map_of_determines hids fun _ _ _ _ heq => Header.Variable.cls_inj heq

end Property.Accepted

/-- A handle that holds a class for `p` is a handle of `r`. -/
def Property.Clashes (p r : Property) : Prop :=
  ∃ q ∈ p.classes, Header.Variable.cls p.name q ∈ r.handles

def Class.Apart (c : Class) : Prop :=
  ∀ p ∈ c.properties, ∀ r ∈ c.properties, p.name ≠ r.name → ¬ p.Clashes r

theorem Property.disjoint_handles {p r : Property} (hname : p.name ≠ r.name)
    (hp : ¬ p.Clashes r) (hr : ¬ r.Clashes p) : p.handles.Disjoint r.handles := by
  intro handle hhp hhr
  rcases (p.mem_handles_iff handle).mp hhp with hplain | hclass
  · rcases (r.mem_handles_iff handle).mp hhr with hplain' | hclass
    · exact hname (name_eq_of_mem_plainHandles hplain hplain')
    · obtain ⟨q, hq, rfl⟩ := List.mem_map.mp hclass
      exact hr ⟨q, hq, hhp⟩
  · obtain ⟨q, hq, rfl⟩ := List.mem_map.mp hclass
    exact hp ⟨q, hq, hhr⟩

theorem Class.Accepted.nodup_handles_iff {c : Class} (h : c.Accepted) :
    c.handles.Nodup ↔ c.Apart := by
  unfold Class.handles
  rw [List.nodup_flatMap]
  constructor
  · rintro ⟨-, hpairs⟩ p hp r hr hname ⟨q, hq, hmem⟩
    have hsymm : Std.Symm (Function.onFun List.Disjoint fun p : Property => p.handles) :=
      ⟨fun _ _ hd _ hr hp => hd hp hr⟩
    have hne : p ≠ r := fun heq => hname (congrArg Property.name heq)
    have hdisjoint := List.Pairwise.forall hpairs hp hr hne
    apply hdisjoint (a := Header.Variable.cls p.name q) _ hmem
    exact (p.mem_handles_iff _).mpr (.inr (List.mem_map_of_mem hq))
  · intro hapart
    refine ⟨fun p hp => (h.property p hp).nodup_handles, ?_⟩
    have hnames := List.pairwise_map.mp h.properties
    apply hnames.imp_of_mem
    intro p r hp hr hname
    exact Property.disjoint_handles hname (hapart p hp r hr hname)
      (hapart r hr p hp (Ne.symm hname))

namespace Header

theorem ofClass_ok_iff {e : Extension} (h : e.Accepted) {c : Class} (hc : c ∈ e.classes) :
    (∃ r, Routine.ofClass e.interner c = .ok r) ↔ c.Apart := by
  rw [← (h.cls c hc).nodup_handles_iff]
  rcases ofClass_cases fun p hp => h.expressible hc hp with ⟨hnodup, hok⟩ | ⟨hnodup, _, herror⟩
  · exact ⟨fun _ => hnodup, fun _ => hok⟩
  · constructor
    · rintro ⟨r, hok⟩
      rw [herror] at hok
      contradiction
    · exact fun hn => absurd hn hnodup

/-- Emission without errors fails on ownership exactly if two properties of one class clash, and it
fails on nothing else. -/
theorem emit_unbalanced_iff {e : Extension} {mode : Validation.Mode}
    (h : (e.validate mode).errors = []) :
    (∀ c ∈ e.classes, (∃ r, Routine.ofClass e.interner c = .ok r) ↔ c.Apart) ∧
      ∀ options,
        ((∃ routine imbalance, emit options e = .error (.unbalanced routine imbalance)) ↔
          ¬ ∀ c ∈ e.classes, c.Apart) ∧
        ((∃ text, emit options e = .ok text) ↔ ∀ c ∈ e.classes, c.Apart) := by
  have accepted := Validation.accepted_of_errors h
  have hclass : ∀ c ∈ e.classes, (∃ r, Routine.ofClass e.interner c = .ok r) ↔ c.Apart :=
    fun c hc => ofClass_ok_iff accepted hc
  refine ⟨hclass, fun options => ?_⟩
  have hok : (∃ text, emit options e = .ok text) ↔ ∀ c ∈ e.classes, c.Apart := by
    rw [emit_ok_iff]
    exact forall₂_congr hclass
  refine ⟨?_, hok⟩
  rw [← hok]
  constructor
  · rintro ⟨routine, imbalance, herror⟩ ⟨text, htext⟩
    rw [herror] at htext
    contradiction
  · intro hfails
    cases hemit : emit options e with
    | ok text => exact absurd ⟨text, hemit⟩ hfails
    | error defect =>
      obtain ⟨c, -, imbalance, rfl⟩ := unbalanced_of_emit_eq_error accepted hemit
      exact ⟨_, imbalance, rfl⟩

/-- The name of `a_class` is held under the same handle as the class `name` for `a`. -/
def ambiguous : Extension where
  classes := [{
    name := ⟨[], "name"⟩
    properties := [{ name := "a", type? := some (.cls ⟨[], "name"⟩) }, { name := "a_class" }] }]

theorem emit_ambiguous_ne_ok :
    (ambiguous.validate .closedWorld).errors = [] ∧
      ∀ options, ¬ ∃ text, emit options ambiguous = .ok text := by
  have h : (ambiguous.validate .closedWorld).errors = [] := by decide +kernel
  refine ⟨h, fun options => ?_⟩
  rw [((emit_unbalanced_iff h).2 options).2]
  intro hapart
  have hclash := hapart _ List.mem_cons_self _ List.mem_cons_self _
    (List.mem_cons_of_mem _ List.mem_cons_self) (by decide)
  apply hclash
  exact ⟨⟨[], "name"⟩, by decide, by decide +kernel⟩

theorem emit_ambiguous_unbalanced :
    (ambiguous.validate .lenient).errors = [] ∧ (ambiguous.validate .closedWorld).errors = [] ∧
      ∀ options, emit options ambiguous = .error
        (.unbalanced "register_class_name" (.createdTwice "property_a_class_name")) := by
  refine ⟨by decide +kernel, by decide +kernel, fun options => ?_⟩
  rw [emit_eq_error_iff]
  decide +kernel

end Header

end ExtensionHeader
