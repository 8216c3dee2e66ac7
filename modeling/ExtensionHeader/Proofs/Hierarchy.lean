import ExtensionHeader.Proofs.Acceptance
import ExtensionHeader.Proofs.Reachability

/-! The inheritance graph, read off the declarations. A name stands for the first class that is
declared under it, ASCII case aside, and this class alone decides what the name inherits from. -/
namespace ExtensionHeader

open Hierarchy

/-- The class with the folded name `a` inherits directly from the name `b`. -/
def Hierarchy.Inherits (classes : List Class) (a b : String) : Prop :=
  ∃ c, classes.find? (·.name.folded = a) = some c ∧ ∃ q ∈ c.supertypes, q.folded = b

namespace Hierarchy

theorem map_snd_linksOf (c : Class) : (linksOf c).map (·.2) = c.supertypes := by
  unfold linksOf Class.supertypes
  simp [List.map_map, Function.comp_def]

def locals (classes : List Class) : List Node :=
  Sequence.firstBy (·.key) (classes.map Node.ofClass)

def mentions (classes : List Class) : List Node :=
  (locals classes).flatMap fun n => n.links.map (Node.external ·.2)

theorem find?_locals (classes : List Class) (key : String) :
    (locals classes).find? (·.key = key) =
      (classes.find? (·.name.folded = key)).map Node.ofClass := by
  unfold locals
  rw [Sequence.find?_firstBy, List.find?_map]
  rfl

theorem find?_ofClasses (classes : List Class) (key : String) :
    (ofClasses classes).find? key =
      ((classes.find? (·.name.folded = key)).map Node.ofClass).or
        ((mentions classes).find? (·.key = key)) := by
  rw [← find?_locals, ← List.find?_append]
  exact Sequence.find?_firstBy Node.key _ key

theorem eq_external_of_mem_mentions {classes : List Class} {n : Node} (h : n ∈ mentions classes) :
    n = .external n.name := by
  obtain ⟨owner, -, h⟩ := List.mem_flatMap.mp h
  obtain ⟨link, -, rfl⟩ := List.mem_map.mp h
  rfl

theorem isSome_get?_of_supertype {classes : List Class} {key : String} {c : Class}
    (h : classes.find? (·.name.folded = key) = some c) {q : QualifiedName}
    (hq : q ∈ c.supertypes) : ((ofClasses classes).get? q).isSome := by
  have hlocal : Node.ofClass c ∈ locals classes := by
    apply List.mem_of_find?_eq_some (p := (·.key = key))
    rw [find?_locals, h, Option.map_some]
  rw [← map_snd_linksOf] at hq
  obtain ⟨link, hlink, rfl⟩ := List.mem_map.mp hq
  have hmention : Node.external link.2 ∈ mentions classes :=
    List.mem_flatMap.mpr ⟨_, hlocal, List.mem_map_of_mem hlink⟩
  unfold get?
  rw [find?_ofClasses, Option.isSome_or, Bool.or_eq_true]
  right
  rw [List.find?_isSome]
  exact ⟨_, hmention, decide_eq_true rfl⟩

theorem get?_of_declared {classes : List Class} {name : QualifiedName} {c : Class}
    (h : classes.find? (·.name.folded = name.folded) = some c) :
    (ofClasses classes).get? name = some (Node.ofClass c) := by
  unfold get?
  rw [find?_ofClasses, h, Option.map_some, Option.some_or]

theorem find?_of_not_declared {classes : List Class} {key : String} {n : Node}
    (hc : classes.find? (·.name.folded = key) = none)
    (h : (ofClasses classes).find? key = some n) : n = .external n.name := by
  rw [find?_ofClasses, hc, Option.map_none, Option.none_or] at h
  exact eq_external_of_mem_mentions (List.mem_of_find?_eq_some h)

/-- The links of a name are those of the first class with it, each resolved by its own name. -/
theorem supertypes_ofClasses (classes : List Class) (name : QualifiedName) :
    (ofClasses classes).supertypes name =
      ((classes.find? (·.name.folded = name.folded)).toList.flatMap linksOf).filterMap
        fun (link, q) => ((ofClasses classes).get? q).map (link, ·) := by
  unfold supertypes
  cases hc : classes.find? (·.name.folded = name.folded) with
  | some c =>
    rw [get?_of_declared hc]
    simp [Node.ofClass]
  | none =>
    cases hn : (ofClasses classes).get? name with
    | none => rfl
    | some n =>
      rw [find?_of_not_declared hc hn]
      rfl

theorem mem_successors_iff (classes : List Class) (a b : String) :
    b ∈ (ofClasses classes).successors a ↔ Inherits classes a b := by
  unfold successors Inherits
  cases hc : classes.find? (·.name.folded = a) with
  | none =>
    cases hn : (ofClasses classes).find? a with
    | none => simp
    | some n =>
      rw [find?_of_not_declared hc hn]
      simp [Node.external]
  | some c =>
    rw [find?_ofClasses, hc, Option.map_some, Option.some_or]
    have hlinks : (Node.ofClass c).links.map (·.2.folded) = c.supertypes.map (·.folded) := by
      rw [← map_snd_linksOf, List.map_map]
      rfl
    simp [hlinks]

theorem mem_keys_of_isSome {h : Hierarchy} {key : String} (hfound : (h.find? key).isSome) :
    key ∈ h.nodes.map (·.key) := by
  obtain ⟨n, hn⟩ := Option.isSome_iff_exists.mp hfound
  have hkey := List.find?_some hn
  rw [← of_decide_eq_true hkey]
  exact List.mem_map_of_mem (List.mem_of_find?_eq_some hn)

theorem mem_ancestors_iff (classes : List Class) (a b : String) :
    b ∈ (ofClasses classes).ancestors a ↔ Relation.TransGen (Inherits classes) a b := by
  have hnext : (fun a b => b ∈ (ofClasses classes).successors a) = Inherits classes := by
    funext a b
    exact propext (mem_successors_iff classes a b)
  unfold ancestors
  rw [Reachability.mem_explore_next_iff, hnext]
  intro a b hb
  obtain ⟨c, hc, q, hq, rfl⟩ := (mem_successors_iff classes a b).mp hb
  exact mem_keys_of_isSome (isSome_get?_of_supertype hc hq)

theorem parent?_ofClasses (classes : List Class) (name : QualifiedName) :
    (ofClasses classes).parent? name =
      ((classes.find? (·.name.folded = name.folded)).bind (·.parent?)).bind
        ((ofClasses classes).get? ·) := by
  unfold parent?
  rw [supertypes_ofClasses]
  cases hc : classes.find? (·.name.folded = name.folded) with
  | none => rfl
  | some c =>
    rw [Option.bind_some, Option.toList_some, List.flatMap_singleton]
    cases hp : c.parent? with
    | none =>
      rw [Option.bind_none, Option.map_eq_none_iff, List.find?_eq_none]
      intro entry hentry
      obtain ⟨⟨link, q⟩, hlink, hnode⟩ := List.mem_filterMap.mp hentry
      obtain ⟨n, -, rfl⟩ := Option.map_eq_some_iff.mp hnode
      simp only [linksOf, hp, Option.toList_none, List.map_nil, List.nil_append, List.mem_map,
        Prod.mk.injEq] at hlink
      obtain ⟨-, -, rfl, -⟩ := hlink
      simp
    | some q =>
      have hq : q ∈ c.supertypes := by
        unfold Class.supertypes
        rw [hp]
        exact List.mem_append_left _ (List.mem_singleton_self q)
      obtain ⟨p, hparent⟩ := Option.isSome_iff_exists.mp (isSome_get?_of_supertype hc hq)
      simp [linksOf, hp, hparent]

end Hierarchy

namespace Validation

theorem ofCycle_eq_nil_iff {members : List QualifiedName} :
    ofCycle members = [] ↔ members = [] := by
  cases members <;> simp [ofCycle]

theorem ofCycles_eq_nil_iff (h : Hierarchy) :
    h.cycles.flatMap ofCycle = [] ↔ ∀ n ∈ h.nodes, n.key ∉ h.ancestors n.key := by
  unfold cycles
  rw [List.flatMap_eq_nil_iff]
  simp only [List.mem_eraseDups, List.forall_mem_map, List.mem_filter, ofCycle_eq_nil_iff,
    List.map_eq_nil_iff, List.filter_eq_nil_iff]
  constructor
  · intro hnil n hn hcycle
    have hentry := And.intro (List.mem_map_of_mem (f := fun n => (n, h.ancestors n.key)) hn)
      (decide_eq_true hcycle)
    exact hnil _ hentry _ hentry (decide_eq_true ⟨hcycle, hcycle⟩)
  · rintro hnone entry ⟨hentry, hcycle⟩
    obtain ⟨n, hn, rfl⟩ := List.mem_map.mp hentry
    exact absurd (of_decide_eq_true hcycle) (hnone n hn)

theorem acyclic_iff (classes : List Class) :
    (ofClasses classes).cycles.flatMap ofCycle = [] ↔
      ∀ key, ¬ Relation.TransGen (Inherits classes) key key := by
  rw [ofCycles_eq_nil_iff]
  simp only [mem_ancestors_iff]
  constructor
  · intro h key hpath
    -- A name on a cycle inherits from something, so it is a node.
    obtain ⟨b, ⟨c, hc, -⟩, -⟩ := Relation.TransGen.head'_iff.mp hpath
    have hfound : ((ofClasses classes).find? key).isSome := by
      rw [find?_ofClasses, hc]
      rfl
    obtain ⟨n, hn, rfl⟩ := List.mem_map.mp (mem_keys_of_isSome hfound)
    exact h n hn hpath
  · exact fun h n _ => h n.key

/-- Only the first class with a name has its parent looked at, and a parent is looked up by its
name. -/
theorem ofParent_eq_nil_iff (classes : List Class) (c : Class) :
    ofParent (ofClasses classes) c = [] ↔
      ∀ first, classes.find? (·.name.folded = c.name.folded) = some first →
        ∀ q, first.parent? = some q →
          ∀ d, classes.find? (·.name.folded = q.folded) = some d → d.isFinal = false := by
  unfold ofParent
  rw [parent?_ofClasses]
  cases hfirst : classes.find? (·.name.folded = c.name.folded) with
  | none => simp
  | some first =>
    cases hq : first.parent? with
    | none => simp [hq]
    | some q =>
      simp only [Option.bind_some, hq, Option.some.injEq, forall_eq']
      cases hd : classes.find? (·.name.folded = q.folded) with
      | none =>
        cases hn : (ofClasses classes).get? q with
        | none => simp
        | some n =>
          rw [find?_of_not_declared hd hn]
          simp [Node.external]
      | some d =>
        simp [get?_of_declared hd, Node.ofClass]

end Validation

end ExtensionHeader
