import ExtensionHeader.Hierarchy
import ExtensionHeader.Proofs.Grouping
import Mathlib.Data.List.FinRange
import Mathlib.Data.List.Flatten
import Mathlib.Logic.Relation

/-! Cycles read off the strongly connected components of the graph. The components may come in any
order, and so may their members: both are put in the order of the nodes. -/
namespace ExtensionHeader.Hierarchy

abbrev Place (h : Hierarchy) : Type := Fin h.nodes.length

def Place.node {h : Hierarchy} (i : h.Place) : Node := h.nodes[i]

section cyclesOf

variable (h : Hierarchy)

def hasEdge (i j : h.Place) : Bool := i.node.links.any (·.2.folded = j.node.key)

def Edge (i j : h.Place) : Prop := h.hasEdge i j = true

/-- Every node is in one component, together with all nodes that have a path to it and from it. -/
structure AreComponents (components : List (List h.Place)) : Prop where
  nonempty : [] ∉ components
  partition : components.flatten.Perm (List.finRange h.nodes.length)
  connected : ∀ component ∈ components, ∀ i ∈ component, ∀ j, j ∈ component ↔
    Relation.ReflTransGen h.Edge i j ∧ Relation.ReflTransGen h.Edge j i

def isCycle (component : List h.Place) : Bool :=
  1 < component.length || component.head?.any fun i => h.hasEdge i i

def cyclesOf (components : List (List h.Place)) : List (List QualifiedName) :=
  ((components.filter h.isCycle).map (·.mergeSort)).mergeSort.map (·.map (·.node.name))

end cyclesOf

section components

variable {h : Hierarchy} {components : List (List h.Place)}

theorem isCycle_iff {component : List h.Place} (hc : component.Nodup) {i : h.Place}
    (hi : i ∈ component) :
    h.isCycle component = true ↔ (∃ j ∈ component, j ≠ i) ∨ h.Edge i i := by
  match component with
  | [only] =>
    obtain rfl := List.mem_singleton.mp hi
    simp [isCycle, Edge]
  | first :: second :: rest =>
    have hne : second ≠ first := by
      rintro rfl
      exact (List.nodup_cons.mp hc).1 List.mem_cons_self
    have hother : ∃ j ∈ first :: second :: rest, j ≠ i := by
      by_cases heq : first = i
      · exact ⟨second, by simp, heq ▸ hne⟩
      · exact ⟨first, by simp, heq⟩
    exact iff_of_true (by simp [isCycle]) (.inl hother)

namespace AreComponents

variable (hcomponents : h.AreComponents components)

include hcomponents

theorem nodup : components.flatten.Nodup :=
  hcomponents.partition.nodup_iff.mpr (List.nodup_finRange _)

theorem transGen_self {component : List h.Place} (hmem : component ∈ components)
    (hcycle : h.isCycle component = true) {i : h.Place} (hi : i ∈ component) :
    Relation.TransGen h.Edge i i := by
  have hnodup := (List.nodup_flatten.mp hcomponents.nodup).1 component hmem
  rcases (isCycle_iff hnodup hi).mp hcycle with ⟨j, hj, hne⟩ | hedge
  · obtain ⟨hthere, hback⟩ := (hcomponents.connected component hmem i hi j).mp hj
    rcases Relation.reflTransGen_iff_eq_or_transGen.mp hthere with heq | hpath
    · exact absurd heq hne
    · exact hpath.trans_left hback
  · exact .single hedge

theorem isCycle_of_transGen {component : List h.Place} (hmem : component ∈ components)
    {i : h.Place} (hi : i ∈ component) (hpath : Relation.TransGen h.Edge i i) :
    h.isCycle component = true := by
  have hnodup := (List.nodup_flatten.mp hcomponents.nodup).1 component hmem
  rw [isCycle_iff hnodup hi]
  -- The node after `i` on the path is `i` itself or another member.
  obtain ⟨j, hedge, hback⟩ := Relation.TransGen.head'_iff.mp hpath
  by_cases heq : j = i
  · exact .inr (heq ▸ hedge)
  · exact .inl ⟨j, (hcomponents.connected component hmem i hi j).mpr ⟨.single hedge, hback⟩, heq⟩

theorem exists_isCycle_iff (i j : h.Place) :
    (∃ component ∈ components.filter h.isCycle, i ∈ component ∧ j ∈ component) ↔
      Relation.TransGen h.Edge i j ∧ Relation.TransGen h.Edge j i := by
  constructor
  · rintro ⟨component, hfilter, hi, hj⟩
    obtain ⟨hmem, hcycle⟩ := List.mem_filter.mp hfilter
    obtain ⟨hthere, hback⟩ := (hcomponents.connected component hmem i hi j).mp hj
    have hself := hcomponents.transGen_self hmem hcycle hi
    exact ⟨hself.trans_left hthere, Relation.TransGen.trans_right hback hself⟩
  · rintro ⟨hthere, hback⟩
    obtain ⟨component, hmem, hi⟩ :=
      List.mem_flatten.mp (hcomponents.partition.mem_iff.mpr (List.mem_finRange i))
    have hcycle := hcomponents.isCycle_of_transGen hmem hi (hthere.trans hback)
    have hj := (hcomponents.connected component hmem i hi j).mpr
      ⟨hthere.to_reflTransGen, hback.to_reflTransGen⟩
    exact ⟨component, List.mem_filter.mpr ⟨hmem, hcycle⟩, hi, hj⟩

theorem isGrouping :
    Sequence.IsGrouping
      (fun i j => Relation.TransGen h.Edge i j ∧ Relation.TransGen h.Edge j i)
      (List.finRange h.nodes.length)
      ((components.filter h.isCycle).map (·.mergeSort)).mergeSort := by
  have hsub : (components.filter h.isCycle).Sublist components := List.filter_sublist
  refine Sequence.isGrouping_mergeSort (List.sortedLT_finRange _)
    (hcomponents.nodup.sublist hsub.flatten) ?_ ?_ ?_
  · exact fun i _ => List.mem_finRange i
  · exact fun hnil => hcomponents.nonempty (hsub.subset hnil)
  · exact fun i _ j _ => hcomponents.exists_isCycle_iff i j

end AreComponents

end components

end ExtensionHeader.Hierarchy
