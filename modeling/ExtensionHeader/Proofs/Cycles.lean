import ExtensionHeader.Proofs.Components
import ExtensionHeader.Proofs.Hierarchy

/-! The inheritance cycles. Classes are listed together when each inherits from the other, on whatever
path, and a class alone when it inherits from itself. Only declared classes inherit from anything, so
no others are on a cycle. -/
namespace ExtensionHeader.Hierarchy

def spellings (classes : List Class) : List QualifiedName :=
  Sequence.firstBy (·.folded) (classes.map (·.name))

def Mutual (classes : List Class) (p q : QualifiedName) : Prop :=
  Relation.TransGen (Inherits classes) p.folded q.folded ∧
    Relation.TransGen (Inherits classes) q.folded p.folded

instance (classes : List Class) : DecidableRel (Mutual classes) := fun p q =>
  decidable_of_iff
    (q.folded ∈ (ofClasses classes).ancestors p.folded ∧
      p.folded ∈ (ofClasses classes).ancestors q.folded)
    (and_congr (mem_ancestors_iff classes _ _) (mem_ancestors_iff classes _ _))

def externals (classes : List Class) : List Node :=
  Sequence.firstBy (·.key)
    ((mentions classes).filter fun n => ∀ m ∈ locals classes, m.key ≠ n.key)

def names (classes : List Class) : List QualifiedName :=
  (ofClasses classes).nodes.map (·.name)

variable (classes : List Class)

theorem isPartialEquiv_mutual : Sequence.IsPartialEquiv (Mutual classes) where
  symm := And.symm
  trans := fun hxy hyz => ⟨hxy.1.trans hyz.1, hyz.2.trans hxy.2⟩

theorem nodes_eq : (ofClasses classes).nodes = locals classes ++ externals classes := by
  have hnodes : (ofClasses classes).nodes =
      Sequence.firstBy (·.key) (locals classes ++ mentions classes) := rfl
  have hlocals : Sequence.firstBy (·.key) (locals classes) = locals classes :=
    Sequence.firstBy_eq_self _ (Sequence.nodup_map_firstBy _ _)
  rw [hnodes, Sequence.firstBy_append, hlocals]
  rfl

theorem map_name_locals : (locals classes).map (·.name) = spellings classes := by
  unfold locals spellings
  rw [Sequence.firstBy_map, Sequence.firstBy_map, List.map_map]
  rfl

theorem names_eq : names classes = spellings classes ++ (externals classes).map (·.name) := by
  unfold names
  rw [nodes_eq, List.map_append, map_name_locals]

theorem key_of_mem_nodes {n : Node} (h : n ∈ (ofClasses classes).nodes) :
    n.key = n.name.folded := by
  rw [nodes_eq, List.mem_append] at h
  rcases h with hlocal | hexternal
  · obtain ⟨c, -, rfl⟩ := List.mem_map.mp (Sequence.mem_of_mem_firstBy hlocal)
    rfl
  · have hmention := (List.mem_filter.mp (Sequence.mem_of_mem_firstBy hexternal)).1
    rw [eq_external_of_mem_mentions hmention]
    rfl

theorem nodup_keys : ((ofClasses classes).nodes.map (·.key)).Nodup :=
  Sequence.nodup_map_firstBy _ _

theorem nodup_names : (names classes).Nodup := by
  refine Sequence.nodup_map_of_determines (nodup_keys classes) fun n hn m hm heq => ?_
  rw [key_of_mem_nodes classes hn, key_of_mem_nodes classes hm, heq]

theorem nodup_folded_spellings : ((spellings classes).map (·.folded)).Nodup :=
  Sequence.nodup_map_firstBy _ _

theorem exists_declared_of_inherits {a b : String}
    (h : Relation.TransGen (Inherits classes) a b) :
    ∃ n ∈ locals classes, n.key = a := by
  obtain ⟨-, ⟨c, hc, -⟩, -⟩ := Relation.TransGen.head'_iff.mp h
  have hfound := find?_locals classes a
  rw [hc, Option.map_some] at hfound
  exact ⟨_, List.mem_of_find?_eq_some hfound, by simpa using List.find?_some hfound⟩

theorem not_mutual_of_mem_externals {n : Node} (h : n ∈ externals classes) :
    ¬ Mutual classes n.name n.name := by
  rintro ⟨hpath, -⟩
  have hnode : n ∈ (ofClasses classes).nodes := by
    rw [nodes_eq]
    exact List.mem_append_right _ h
  rw [← key_of_mem_nodes classes hnode] at hpath
  obtain ⟨m, hm, hkey⟩ := exists_declared_of_inherits classes hpath
  have hfresh := (List.mem_filter.mp (Sequence.mem_of_mem_firstBy h)).2
  exact of_decide_eq_true hfresh m hm hkey

/-! The cycles that are found by looking at the ancestors of each node. -/

theorem mutual_iff {n m : Node} (hn : n ∈ (ofClasses classes).nodes)
    (hm : m ∈ (ofClasses classes).nodes) :
    Mutual classes n.name m.name ↔
      m.key ∈ (ofClasses classes).ancestors n.key ∧
        n.key ∈ (ofClasses classes).ancestors m.key := by
  rw [mem_ancestors_iff, mem_ancestors_iff, key_of_mem_nodes classes hn,
    key_of_mem_nodes classes hm]
  rfl

theorem filter_names {p : QualifiedName → Bool} {q : Node → Bool}
    (h : ∀ n ∈ (ofClasses classes).nodes, p n.name = q n) :
    (names classes).filter p = ((ofClasses classes).nodes.filter q).map (·.name) := by
  unfold names
  rw [List.filter_map]
  exact congrArg _ (List.filter_congr h)

theorem cycles_ofClasses_eq :
    (ofClasses classes).cycles =
      (((names classes).filter fun p => Mutual classes p p).map
        (Sequence.related (Mutual classes) (names classes))).eraseDups := by
  have hself : ∀ n ∈ (ofClasses classes).nodes, decide (Mutual classes n.name n.name) =
      decide (n.key ∈ (ofClasses classes).ancestors n.key) := by
    intro n hn
    exact decide_eq_decide.mpr ((mutual_iff classes hn hn).trans (and_self_iff))
  unfold cycles
  simp only [List.filter_map, Function.comp_def, List.map_map]
  rw [filter_names classes hself, List.map_map]
  refine congrArg List.eraseDups (List.map_congr_left fun n hn => ?_)
  have hnode := (List.mem_filter.mp hn).1
  rw [Function.comp_apply, List.filter_filter]
  refine (filter_names classes fun m hm => ?_).symm
  rw [Bool.eq_iff_iff, Bool.and_eq_true, decide_eq_true_iff, decide_eq_true_iff,
    decide_eq_true_iff, ← mutual_iff classes hnode hm, iff_self_and]
  intro h
  exact ((mutual_iff classes hm hm).mp
    ((isPartialEquiv_mutual classes).trans (And.symm h) h)).1

theorem isGrouping_names :
    Sequence.IsGrouping (Mutual classes) (names classes) (ofClasses classes).cycles := by
  have hpartial := isPartialEquiv_mutual classes
  have hnodup := nodup_names classes
  rw [cycles_ofClasses_eq, Sequence.eraseDups_map_related hpartial hnodup]
  exact Sequence.isGrouping_leaders hpartial hnodup

theorem isGrouping_spellings :
    Sequence.IsGrouping (Mutual classes) (spellings classes) (ofClasses classes).cycles := by
  have hgrouping := isGrouping_names classes
  rw [names_eq] at hgrouping
  refine hgrouping.of_append (List.forall_mem_map.mpr fun n hn => ?_)
  exact not_mutual_of_mem_externals classes hn

/-! The cycles that are read off the strongly connected components. -/

theorem edge_iff (i j : (ofClasses classes).Place) :
    (ofClasses classes).Edge i j ↔ Inherits classes i.node.key j.node.key := by
  have hfound : (ofClasses classes).find? i.node.key = some i.node :=
    (Sequence.find?_eq_some_iff (nodup_keys classes)).mpr ⟨List.getElem_mem _, rfl⟩
  rw [← mem_successors_iff]
  unfold Edge hasEdge successors
  rw [hfound, List.any_eq_true]
  simp only [decide_eq_true_iff, List.mem_map]

theorem exists_place_of_inherits {a b : String} (h : Inherits classes a b) :
    ∃ j : (ofClasses classes).Place, j.node.key = b := by
  obtain ⟨c, hc, q, hq, rfl⟩ := h
  obtain ⟨n, hn, hkey⟩ := List.mem_map.mp (mem_keys_of_isSome (isSome_get?_of_supertype hc hq))
  obtain ⟨j, hj, rfl⟩ := List.mem_iff_getElem.mp hn
  exact ⟨⟨j, hj⟩, hkey⟩

theorem transGen_edge_iff (i j : (ofClasses classes).Place) :
    Relation.TransGen (ofClasses classes).Edge i j ↔
      Relation.TransGen (Inherits classes) i.node.key j.node.key := by
  constructor
  · exact Relation.TransGen.lift (·.node.key) (fun i j => (edge_iff classes i j).mp) i j
  · intro h
    generalize hb : j.node.key = b at h
    induction h generalizing j with
    | single hstep => exact .single ((edge_iff classes i j).mpr (hb ▸ hstep))
    | tail hpath hstep ih =>
      -- The name before the last link is inherited from, so it has a node.
      obtain ⟨_, -, hlast⟩ := Relation.TransGen.tail'_iff.mp hpath
      obtain ⟨k, rfl⟩ := exists_place_of_inherits classes hlast
      exact (ih k rfl).tail ((edge_iff classes k j).mpr (hb ▸ hstep))

theorem reflTransGen_edge_iff (i j : (ofClasses classes).Place) :
    Relation.ReflTransGen (ofClasses classes).Edge i j ↔
      j = i ∨ j.node.key ∈ (ofClasses classes).ancestors i.node.key := by
  rw [Relation.reflTransGen_iff_eq_or_transGen, transGen_edge_iff, mem_ancestors_iff]

theorem isGrouping_cyclesOf {components : List (List (ofClasses classes).Place)}
    (h : (ofClasses classes).AreComponents components) :
    Sequence.IsGrouping (Mutual classes) (names classes)
      ((ofClasses classes).cyclesOf components) := by
  have hnames : (List.finRange (ofClasses classes).nodes.length).map
      (fun i : (ofClasses classes).Place => i.node.name) = names classes := by
    unfold names
    conv_rhs => rw [← List.map_getElem_finRange (ofClasses classes).nodes, List.map_map]
    rfl
  have hkey : ∀ i : (ofClasses classes).Place, i.node.key = i.node.name.folded :=
    fun i => key_of_mem_nodes classes (List.getElem_mem _)
  rw [← hnames]
  refine h.isGrouping.map (hnames ▸ nodup_names classes) fun i _ j _ => ?_
  rw [transGen_edge_iff, transGen_edge_iff, hkey, hkey]
  rfl

theorem cyclesOf_eq {components : List (List (ofClasses classes).Place)}
    (h : (ofClasses classes).AreComponents components) :
    (ofClasses classes).cyclesOf components = (ofClasses classes).cycles :=
  (isGrouping_cyclesOf classes h).unique (isGrouping_names classes) (nodup_names classes)

theorem mem_flatten_cycles_iff (q : QualifiedName) :
    q ∈ (ofClasses classes).cycles.flatten ↔
      q ∈ spellings classes ∧ Relation.TransGen (Inherits classes) q.folded q.folded := by
  have hgrouping := isGrouping_spellings classes
  rw [List.mem_flatten]
  constructor
  · rintro ⟨cycle, hcycle, hmem⟩
    have hq := (hgrouping.ordered cycle hcycle).subset hmem
    exact ⟨hq, ((hgrouping.together q hq q hq).mp ⟨cycle, hcycle, hmem, hmem⟩).1⟩
  · rintro ⟨hq, hpath⟩
    obtain ⟨cycle, hcycle, hmem, -⟩ := (hgrouping.together q hq q hq).mpr ⟨hpath, hpath⟩
    exact ⟨cycle, hcycle, hmem⟩

theorem nodup_folded_cycles : ((ofClasses classes).cycles.flatten.map (·.folded)).Nodup := by
  have honce : ((ofClasses classes).cycles.flatten.map id).Nodup := by
    rw [List.map_id]
    exact (isGrouping_spellings classes).once
  refine Sequence.nodup_map_of_determines honce fun p hp q hq heq => ?_
  have hp := ((mem_flatten_cycles_iff classes p).mp hp).1
  have hq := ((mem_flatten_cycles_iff classes q).mp hq).1
  exact List.inj_on_of_nodup_map (nodup_folded_spellings classes) hp hq heq

/-- The cycles are the strongly connected components with a path in them, put in order, whatever
order they come in. The classes on cycles are grouped as the ones that inherit from each other, and
this, with the order of declaration among groups and within them, leaves no other way to list them. A
class is on a cycle exactly if it is declared and inherits from itself; it is shown as it is first
spelt, and no class is shown twice. -/
theorem cycles_grouped :
    (∀ components, (ofClasses classes).AreComponents components →
      (ofClasses classes).cyclesOf components = (ofClasses classes).cycles) ∧
    (∀ cycles, cycles = (ofClasses classes).cycles ↔
      Sequence.IsGrouping (Mutual classes) (spellings classes) cycles) ∧
    (∀ q, q ∈ (ofClasses classes).cycles.flatten ↔
      q ∈ spellings classes ∧ Relation.TransGen (Inherits classes) q.folded q.folded) ∧
    ((ofClasses classes).cycles.flatten.map (·.folded)).Nodup := by
  have hgrouping := isGrouping_spellings classes
  have hnodup : (spellings classes).Nodup := (nodup_folded_spellings classes).of_map
  refine ⟨fun _ h => cyclesOf_eq classes h, fun cycles => ⟨?_, fun h => ?_⟩,
    mem_flatten_cycles_iff classes, nodup_folded_cycles classes⟩
  · rintro rfl
    exact hgrouping
  · exact h.unique hgrouping hnodup

def knotted : List Class :=
  [{ name := ⟨["Net"], "Reader"⟩, parent? := some ⟨["net"], "writer"⟩ },
    { name := ⟨["Net"], "Writer"⟩, parent? := some ⟨[], "Stream"⟩,
      interfaces := [⟨["NET"], "READER"⟩] },
    { name := ⟨[], "Loop"⟩, interfaces := [⟨[], "loop"⟩] }]

def knottedGraph : Hierarchy := ⟨[
  { name := ⟨["Net"], "Reader"⟩, key := "net\\reader", isLocal := true,
    links := [(.extends, ⟨["net"], "writer"⟩)] },
  { name := ⟨["Net"], "Writer"⟩, key := "net\\writer", isLocal := true,
    links := [(.extends, ⟨[], "Stream"⟩), (.implements, ⟨["NET"], "READER"⟩)] },
  { name := ⟨[], "Loop"⟩, key := "loop", isLocal := true, links := [(.implements, ⟨[], "loop"⟩)] },
  { name := ⟨[], "Stream"⟩, key := "stream" }]⟩

theorem ofClasses_knotted : ofClasses knotted = knottedGraph := by
  have hfolded : (⟨["Net"], "Reader"⟩ : QualifiedName).folded = "net\\reader" ∧
      (⟨["Net"], "Writer"⟩ : QualifiedName).folded = "net\\writer" ∧
      (⟨["net"], "writer"⟩ : QualifiedName).folded = "net\\writer" ∧
      (⟨["NET"], "READER"⟩ : QualifiedName).folded = "net\\reader" ∧
      (⟨[], "Loop"⟩ : QualifiedName).folded = "loop" ∧
      (⟨[], "loop"⟩ : QualifiedName).folded = "loop" ∧
      (⟨[], "Stream"⟩ : QualifiedName).folded = "stream" := by
    decide +kernel
  simp [ofClasses, Node.ofClass, Node.external, linksOf, knotted, knottedGraph, hfolded,
    Sequence.firstBy_cons]

def knots : List (List knottedGraph.Place) :=
  ([[3], [2], [1, 0]] : List (List (Fin 4)))

theorem cycles_grouped_knotted :
    ofClasses knotted = knottedGraph ∧ knottedGraph.AreComponents knots ∧
      knottedGraph.cyclesOf knots =
        [[⟨["Net"], "Reader"⟩, ⟨["Net"], "Writer"⟩], [⟨[], "Loop"⟩]] := by
  have hordered := (cycles_grouped knotted).1
  have hpath := reflTransGen_edge_iff knotted
  rw [ofClasses_knotted] at hordered hpath
  have hcomponents : knottedGraph.AreComponents knots :=
    { nonempty := by decide
      partition := by decide
      connected := by
        simp only [hpath]
        decide +kernel }
  have hcycles : knottedGraph.cycles =
      [[⟨["Net"], "Reader"⟩, ⟨["Net"], "Writer"⟩], [⟨[], "Loop"⟩]] := by
    decide +kernel
  exact ⟨ofClasses_knotted, hcomponents, (hordered _ hcomponents).trans hcycles⟩

end ExtensionHeader.Hierarchy
