import ExtensionHeader.Proofs.Placement
import ExtensionHeader.Proofs.Rules

/-! A class that is declared more than once. All that looks classes up by name sees the first
declaration: the search for a class, the inheritance graph, and the check that no final class is
extended. The later declarations are reported as duplicates, and only they are. -/
namespace ExtensionHeader

namespace Diagnostic

theorem when_true (d : Diagnostic) : when true d = [d] := rfl

theorem when_false (d : Diagnostic) : when false d = [] := rfl

theorem flatMap_when (p : α → Bool) (d : α → Diagnostic) (xs : List α) :
    xs.flatMap (fun x => when (p x) (d x)) = (xs.filter p).map d := by
  induction xs with
  | nil => rfl
  | cons x rest ih => cases hx : p x <;> simp [List.flatMap_cons, ih, hx, when_true, when_false]

def refusesParent (d : Diagnostic) : Bool :=
  d.rule = .invalidFlags && "cannot extend final class ".toList.isPrefixOf d.message.toList

def AllowsParents (ds : List Diagnostic) : Prop := ∀ d ∈ ds, d.refusesParent = false

theorem allowsParents_append {first second : List Diagnostic} :
    AllowsParents (first ++ second) ↔ AllowsParents first ∧ AllowsParents second :=
  List.forall_mem_append

theorem allowsParents_when {condition : Bool} {rule : Rule} {location : Location}
    {message : String}
    (h : rule ≠ .invalidFlags ∨
      "cannot extend final class ".toList.isPrefixOf message.toList = false) :
    AllowsParents (when condition ⟨rule, location, message⟩) := by
  intro d hd
  obtain ⟨-, rfl⟩ := mem_when.mp hd
  unfold refusesParent
  rw [Bool.and_eq_false_iff]
  exact h.imp_left decide_eq_false

theorem Under.allowsParents {rules : List Rule} {ds : List Diagnostic} (h : Under rules ds)
    (apart : .invalidFlags ∉ rules) : AllowsParents ds := by
  intro d hd
  have hrule : d.rule ≠ .invalidFlags := fun heq => apart (heq ▸ h d hd)
  unfold refusesParent
  rw [decide_eq_false hrule, Bool.false_and]

theorem AllowsParents.filter_eq_nil {ds : List Diagnostic} (h : AllowsParents ds) :
    ds.filter (·.refusesParent) = [] := by
  rw [List.filter_eq_nil_iff]
  intro d hd
  rw [h d hd]
  exact Bool.false_ne_true

end Diagnostic

/-- The final class that the declaration would extend. Its name stands for the first class with it,
and so does the name of the parent. -/
def Extension.finalParent? (e : Extension) (c : Class) : Option Class :=
  (((e.findClass? c.name).bind (·.parent?)).bind e.findClass?).filter (·.isFinal)

theorem Extension.finalParent?_eq_some {e : Extension} {c first parent : Class} {q : QualifiedName}
    (hfirst : e.findClass? c.name = some first) (hq : first.parent? = some q)
    (hparent : e.findClass? q = some parent) (hfinal : parent.isFinal = true) :
    e.finalParent? c = some parent := by
  unfold finalParent?
  rw [hfirst, Option.bind_some, hq, Option.bind_some, hparent]
  exact Option.filter_some_pos hfinal

namespace Validation

open Diagnostic

def duplicateClass (c : Class) : Diagnostic :=
  ⟨.duplicateClass, .cls c.name, s!"class '{c.name.display}' is declared more than once"⟩

def extendsFinal (c parent : Class) : Diagnostic :=
  ⟨.invalidFlags, .cls c.name, s!"cannot extend final class {parent.name.display}"⟩

/-- What is found of members and inheritance is all that rules other than the two about names in
use are about. -/
theorem filter_errors (e : Extension) (mode : Mode) {p : Diagnostic → Bool}
    (h : ∀ d : Diagnostic, d.rule ∈ [.unresolvedReference, .manglingCollision] → p d = false) :
    (e.validate mode).errors.filter p = (members e).filter p ++ (inheritance e).filter p := by
  have hundeclared : (undeclared e).filter p = [] :=
    ((under_undeclared e).mono (by decide)).filter_eq_nil h
  have hcollisions : (collisions e).filter p = [] :=
    ((under_collisions e).mono (by decide)).filter_eq_nil h
  cases mode <;>
    simp only [Extension.validate, List.filter_append, hundeclared, hcollisions, List.append_nil]

theorem filter_rule_eq_nil {rules : List Rule} {rule : Rule} {ds : List Diagnostic}
    (h : Under rules ds) (apart : rule ∉ rules) : ds.filter (·.rule = rule) = [] :=
  h.filter_eq_nil fun _ hd => decide_eq_false fun heq => apart (heq ▸ hd)

theorem filter_ofClass (earlier : List Class) (c : Class) :
    (ofClass earlier c).filter (·.rule = .duplicateClass) =
      when (earlier.any (·.name.folded = c.name.folded)) (duplicateClass c) := by
  unfold ofClass
  simp only [List.filter_append]
  rw [filter_rule_eq_nil (under_ofQualifiedName _ _) (by decide),
    filter_rule_eq_nil (under_flatMapEarlier (under_ofMethod c) c.methods) (by decide),
    filter_rule_eq_nil (under_flatMapEarlier (under_ofProperty c) c.properties) (by decide)]
  cases earlier.any (·.name.folded = c.name.folded) <;> cases c.isAbstract && c.isFinal <;> rfl

theorem filter_duplicateClass (e : Extension) (mode : Mode) :
    (e.validate mode).errors.filter (·.rule = .duplicateClass) =
      (e.classes.zipIdx.filter fun (c, i) =>
        (e.classes.take i).any (·.name.folded = c.name.folded)).map
          fun (c, _) => duplicateClass c := by
  have hother : ∀ d : Diagnostic, d.rule ∈ [.unresolvedReference, .manglingCollision] →
      decide (d.rule = .duplicateClass) = false := by
    intro d hd
    exact decide_eq_false fun heq => absurd (heq ▸ hd) (by decide)
  rw [filter_errors e mode hother, filter_rule_eq_nil (under_inheritance e) (by decide),
    List.append_nil]
  unfold members
  rw [List.filter_append, List.filter_append,
    filter_rule_eq_nil (under_ofPath _ _) (by decide),
    filter_rule_eq_nil (under_flatMapEarlier under_ofFunction e.functions) (by decide),
    List.nil_append, List.nil_append, Sequence.flatMapEarlier_eq_flatMap_zipIdx,
    List.filter_flatMap]
  simp only [filter_ofClass]
  exact flatMap_when _ _ _

/-! No check of members says that a class extends a final class. -/

theorem allowsParents_ofMethod (c : Class) (earlier : List Method) (m : Method) :
    AllowsParents (ofMethod c earlier m) := by
  unfold ofMethod
  simp only [allowsParents_append]
  refine ⟨⟨⟨⟨?_, ?_⟩, ?_⟩, ?_⟩, ?_⟩
  · exact (under_ofSimpleName _ _).allowsParents (by decide)
  · exact allowsParents_when (.inl (by decide))
  · exact allowsParents_when (.inr (by decide))
  · exact allowsParents_when (.inr (by rw [String.toList_append]; rfl))
  · exact (under_ofSignature _ _).allowsParents (by decide)

theorem allowsParents_ofClass (earlier : List Class) (c : Class) :
    AllowsParents (ofClass earlier c) := by
  have hproperties : Under propertyRules (Sequence.flatMapEarlier (ofProperty c) c.properties) :=
    under_flatMapEarlier (under_ofProperty c) c.properties
  unfold ofClass
  simp only [allowsParents_append]
  refine ⟨⟨⟨⟨?_, ?_⟩, ?_⟩, ?_⟩, ?_⟩
  · exact (under_ofQualifiedName _ _).allowsParents (by decide)
  · exact allowsParents_when (.inl (by decide))
  · exact allowsParents_when (.inr (by decide))
  · exact Sequence.forall_mem_flatMapEarlier (allowsParents_ofMethod c) c.methods
  · exact hproperties.allowsParents (by decide)

theorem allowsParents_members (e : Extension) : AllowsParents (members e) := by
  have hfunctions := under_flatMapEarlier under_ofFunction e.functions
  unfold members
  simp only [allowsParents_append]
  refine ⟨⟨?_, ?_⟩, ?_⟩
  · exact (under_ofPath _ _).allowsParents (by decide)
  · exact hfunctions.allowsParents (by decide)
  · exact Sequence.forall_mem_flatMapEarlier allowsParents_ofClass e.classes

theorem ofParent_eq (e : Extension) (c : Class) :
    ofParent e.hierarchy c = ((e.finalParent? c).map (extendsFinal c)).toList := by
  unfold ofParent Extension.hierarchy Extension.finalParent? Extension.findClass?
  rw [Hierarchy.parent?_ofClasses]
  cases (e.classes.find? (·.name.folded = c.name.folded)).bind (·.parent?) with
  | none => rfl
  | some q =>
    rw [Option.bind_some, Option.bind_some]
    cases hd : e.classes.find? (·.name.folded = q.folded) with
    | some d =>
      rw [Hierarchy.get?_of_declared hd]
      have hlocal : ((Hierarchy.Node.ofClass d).isLocal && (Hierarchy.Node.ofClass d).isFinal) =
          d.isFinal := Bool.true_and _
      rw [Option.filter_some]
      simp only [hlocal]
      cases d.isFinal <;> rfl
    | none =>
      cases hn : (Hierarchy.ofClasses e.classes).get? q with
      | none => rfl
      | some n =>
        rw [Hierarchy.find?_of_not_declared hd hn]
        rfl

theorem refusesParent_extendsFinal (c parent : Class) :
    (extendsFinal c parent).refusesParent = true := by
  have hmessage : (extendsFinal c parent).message.toList =
      "cannot extend final class ".toList ++ parent.name.display.toList :=
    String.toList_append
  unfold refusesParent
  rw [hmessage, Bool.and_eq_true, List.isPrefixOf_iff_prefix]
  exact ⟨rfl, List.prefix_append _ _⟩

/-- A class is reported for its parent exactly if the first class with its name extends a class
whose first declaration is final. -/
theorem filter_refusesParent (e : Extension) (mode : Mode) :
    (e.validate mode).errors.filter (·.refusesParent) =
      e.classes.filterMap fun c => (e.finalParent? c).map (extendsFinal c) := by
  have hother : ∀ d : Diagnostic, d.rule ∈ [.unresolvedReference, .manglingCollision] →
      d.refusesParent = false := by
    intro d hd
    have hone : Under [.unresolvedReference, .manglingCollision] [d] := under_singleton.mpr hd
    exact hone.allowsParents (by decide) d (List.mem_singleton_self d)
  have hparents : e.classes.flatMap (ofParent e.hierarchy) =
      e.classes.filterMap fun c => (e.finalParent? c).map (extendsFinal c) := by
    rw [List.filterMap_eq_flatMap_toList]
    exact List.flatMap_congr fun c _ => ofParent_eq e c
  have hall : ∀ d ∈ e.classes.filterMap fun c => (e.finalParent? c).map (extendsFinal c),
      d.refusesParent = true := by
    intro d hd
    obtain ⟨c, -, hc⟩ := List.mem_filterMap.mp hd
    obtain ⟨parent, -, rfl⟩ := Option.map_eq_some_iff.mp hc
    exact refusesParent_extendsFinal c parent
  have hcycles := under_flatMap under_ofCycle e.hierarchy.cycles
  rw [filter_errors e mode hother, (allowsParents_members e).filter_eq_nil, List.nil_append]
  unfold inheritance
  rw [List.filter_append, (hcycles.allowsParents (by decide)).filter_eq_nil, List.nil_append,
    hparents, List.filter_eq_self.mpr hall]

end Validation

namespace Extension

open Hierarchy Validation

theorem folded_of_get? {e : Extension} {name : QualifiedName} {n : Node}
    (h : e.hierarchy.get? name = some n) : n.name.folded = name.folded := by
  have hfound : e.hierarchy.nodes.find? (·.key = name.folded) = some n := h
  have hkey : n.key = name.folded := by simpa using List.find?_some hfound
  cases hc : e.classes.find? (·.name.folded = name.folded) with
  | none =>
    rw [find?_of_not_declared hc h] at hkey
    exact hkey
  | some c =>
    rw [hierarchy, get?_of_declared hc, Option.some.injEq] at h
    rw [← h] at hkey ⊢
    exact hkey

theorem exists_local_iff (e : Extension) (name : QualifiedName) :
    (∃ n, e.hierarchy.get? name = some n ∧ n.isLocal = true) ↔ e.declaresClass name = true := by
  unfold declaresClass findClass?
  cases hc : e.classes.find? (·.name.folded = name.folded) with
  | some c => exact iff_of_true ⟨_, get?_of_declared hc, rfl⟩ rfl
  | none =>
    refine iff_of_false ?_ Bool.false_ne_true
    rintro ⟨n, hn, hlocal⟩
    rw [find?_of_not_declared hc hn] at hlocal
    exact Bool.false_ne_true hlocal

theorem supertypes_of_findClass? {e : Extension} {name : QualifiedName} {c : Class}
    (h : e.findClass? name = some c) :
    (e.hierarchy.supertypes name).map (fun (link, n) => (link, some n)) =
      c.parent?.toList.map (fun q => (.extends, e.hierarchy.get? q)) ++
        c.interfaces.map (fun q => (.implements, e.hierarchy.get? q)) := by
  have hresolved : ∀ entry ∈ linksOf c,
      ((e.hierarchy.get? entry.2).map (entry.1, ·)).map (fun (link, n) => (link, some n)) =
        some (entry.1, e.hierarchy.get? entry.2) := by
    intro entry hentry
    have hq : entry.2 ∈ c.supertypes := by
      rw [← map_snd_linksOf]
      exact List.mem_map_of_mem hentry
    obtain ⟨n, hn⟩ := Option.isSome_iff_exists.mp (isSome_get?_of_supertype h hq)
    rw [hierarchy, hn]
    rfl
  have hlinks : (linksOf c).map (fun entry => (entry.1, e.hierarchy.get? entry.2)) =
      c.parent?.toList.map (fun q => (.extends, e.hierarchy.get? q)) ++
        c.interfaces.map (fun q => (.implements, e.hierarchy.get? q)) := by
    unfold linksOf
    rw [List.map_append, List.map_map, List.map_map]
    rfl
  unfold findClass? at h
  rw [← hlinks, hierarchy, supertypes_ofClasses, h, Option.toList_some, List.flatMap_singleton,
    List.map_filterMap, ← List.filterMap_eq_map]
  exact List.filterMap_congr hresolved

/-- All that looks classes up by name, ASCII case aside, sees the first declaration with the name,
and the later ones are reported as duplicates. The indexes that are filled one declaration after the
other give the same answers. -/
theorem first_declarations_agree (e : Extension) (mode : Mode) :
    (e.validate mode).errors.filter (·.rule = .duplicateClass) =
      (e.classes.zipIdx.filter fun (c, i) =>
        (e.classes.take i).any (·.name.folded = c.name.folded)).map
          (fun (c, _) => duplicateClass c) ∧
    (∀ name c, e.findClass? name = some c ↔ c.name.folded = name.folded ∧
      ∃ before after, e.classes = before ++ c :: after ∧
        ∀ d ∈ before, d.name.folded ≠ name.folded) ∧
    (∀ name, (∃ n, e.hierarchy.get? name = some n ∧ n.isLocal = true) ↔
      e.declaresClass name = true) ∧
    (∀ name c, e.findClass? name = some c →
      (∃ n, e.hierarchy.get? name = some n ∧ n.name = c.name ∧ n.isFinal = c.isFinal) ∧
      (e.hierarchy.supertypes name).map (fun (link, n) => (link, some n)) =
        c.parent?.toList.map (fun q => (.extends, e.hierarchy.get? q)) ++
          c.interfaces.map (fun q => (.implements, e.hierarchy.get? q))) ∧
    (∀ name n, e.hierarchy.get? name = some n → n.name.folded = name.folded) ∧
    (e.validate mode).errors.filter (·.refusesParent) =
      e.classes.filterMap (fun c => (e.finalParent? c).map (extendsFinal c)) ∧
    (∀ name, (e.classIndex.lookup name.folded).bind (e.classes[·]?) = e.findClass? name) ∧
    (∀ name, (Draft.ofClasses e.classes).get? name = (e.hierarchy.get? name).map Node.bare) ∧
    ∀ name, (Draft.ofClasses e.classes).supertypes name =
      (e.hierarchy.supertypes name).map fun (link, n) => (link, n.bare) := by
  refine ⟨filter_duplicateClass e mode, fun name c => ?_, exists_local_iff e, fun name c h => ?_,
    fun _ _ => folded_of_get?, filter_refusesParent e mode, lookup_bind_classes e,
    Draft.get?_ofClasses e.classes, Draft.supertypes_ofClasses e.classes⟩
  · unfold findClass?
    rw [List.find?_eq_some_iff_append]
    simp only [decide_eq_true_eq, Bool.not_eq_true', decide_eq_false_iff_not, ne_eq]
  · exact ⟨⟨_, get?_of_declared h, rfl, rfl⟩, supertypes_of_findClass? h⟩

/-! A final class that is declared again, and a class that extends it and is declared again. -/

def base : Class := { name := ⟨[], "Base"⟩, isFinal := true }

def leaf : Class :=
  { name := ⟨[], "Leaf"⟩, parent? := some ⟨[], "BASE"⟩, interfaces := [⟨[], "Countable"⟩] }

def twiceBase : Class := { name := ⟨[], "base"⟩ }

def twiceLeaf : Class := { name := ⟨[], "LEAF"⟩, parent? := some ⟨[], "Other"⟩ }

def twice : Extension where
  classes := [base, leaf, twiceBase, twiceLeaf]

theorem first_declarations_agree_twice :
    (twice.validate .lenient).errors.filter (·.rule = .duplicateClass) =
      [duplicateClass twiceBase, duplicateClass twiceLeaf] ∧
    extendsFinal twiceLeaf base ∈ (twice.validate .lenient).errors ∧
    (twice.hierarchy.supertypes ⟨[], "leaf"⟩).map (fun (link, n) => (link, some n)) =
      [(.extends, twice.hierarchy.get? ⟨[], "BASE"⟩),
        (.implements, twice.hierarchy.get? ⟨[], "Countable"⟩)] := by
  have hbase : ∀ s ∈ ["Base", "BASE", "base"], (⟨[], s⟩ : QualifiedName).folded = "base" := by
    decide +kernel
  have hleaf : ∀ s ∈ ["Leaf", "LEAF", "leaf"], (⟨[], s⟩ : QualifiedName).folded = "leaf" := by
    decide +kernel
  simp only [List.forall_mem_cons, List.not_mem_nil, false_implies, implies_true, and_true]
    at hbase hleaf
  have hfirst : ∀ name : QualifiedName, name.folded = "leaf" →
      twice.findClass? name = some leaf := by
    intro name hname
    simp [findClass?, twice, base, leaf, hname, hbase, hleaf]
  have hparent : twice.findClass? ⟨[], "BASE"⟩ = some base := by
    simp [findClass?, twice, base, hbase]
  obtain ⟨hduplicates, -, -, hfound, -, hfinal, -, -, -⟩ := first_declarations_agree twice .lenient
  refine ⟨?_, ?_, (hfound _ _ (hfirst _ hleaf.2.2)).2⟩
  · rw [hduplicates]
    simp [twice, base, leaf, twiceBase, twiceLeaf, hbase, hleaf, List.zipIdx_cons]
  · have hrefused : twice.finalParent? twiceLeaf = some base :=
      finalParent?_eq_some (hfirst twiceLeaf.name hleaf.2.1) rfl hparent rfl
    have hmem : extendsFinal twiceLeaf base ∈
        (twice.validate .lenient).errors.filter (·.refusesParent) := by
      rw [hfinal]
      exact List.mem_filterMap.mpr ⟨twiceLeaf, by simp [twice], by rw [hrefused, Option.map_some]⟩
    exact List.mem_of_mem_filter hmem

end Extension

end ExtensionHeader
