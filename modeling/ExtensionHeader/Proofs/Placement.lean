import ExtensionHeader.Proofs.Hierarchy

/-! Class indexes as they are filled, one declaration after the other. The position of a class is
recorded when its name is new. The inheritance graph is drawn in two passes: the first places the
declared classes, the second draws the links of the first class with each name and places the
supertypes that have no node yet. Both indexes answer as the definitions over whole lists do. -/
namespace ExtensionHeader

/-- A loop that skips the elements whose key it has seen. -/
def Sequence.foldUnseen [DecidableEq κ] (key : α → κ) (step : σ → α → σ) :
    List κ → σ → List α → σ
  | _, s, [] => s
  | seen, s, x :: rest =>
    if key x ∈ seen then foldUnseen key step seen s rest
    else foldUnseen key step (key x :: seen) (step s x) rest

theorem Sequence.foldUnseen_eq {κ : Type*} [DecidableEq κ] (key : α → κ) (step : σ → α → σ)
    (seen : List κ) (s : σ) (xs : List α) :
    foldUnseen key step seen s xs =
      (firstBy key (xs.filter fun x => key x ∉ seen)).foldl step s := by
  induction xs generalizing seen s with
  | nil => rfl
  | cons x rest ih =>
    unfold foldUnseen
    by_cases hx : key x ∈ seen
    · rw [if_pos hx, ih, List.filter_cons_of_neg (by simpa using hx)]
    · have hrest : (rest.filter fun y => key y ∉ seen).filter (fun y => key y ≠ key x) =
          rest.filter fun y => key y ∉ key x :: seen := by
        rw [List.filter_filter]
        refine List.filter_congr fun y _ => ?_
        simp [List.mem_cons, not_or]
      rw [if_neg hx, ih, List.filter_cons_of_pos (by simpa using hx), firstBy_cons, hrest,
        List.foldl_cons]

def recordAbsent (index : List (String × Nat)) (key : String) (position : Nat) :
    List (String × Nat) :=
  match index.lookup key with
  | some _ => index
  | none => index ++ [(key, position)]

theorem lookup_concat (index : List (String × Nat)) (key : String) (position : Nat) (k : String) :
    (index ++ [(key, position)]).lookup k =
      (index.lookup k).or (if key = k then some position else none) := by
  rw [List.lookup_append, List.lookup_cons]
  by_cases hk : key = k
  · simp [hk]
  · simp [hk, beq_eq_false_iff_ne.mpr (Ne.symm hk)]

theorem lookup_recordAbsent (index : List (String × Nat)) (key : String) (position : Nat)
    (k : String) :
    (recordAbsent index key position).lookup k =
      (index.lookup k).or (if key = k then some position else none) := by
  unfold recordAbsent
  cases hkey : index.lookup key with
  | none => exact lookup_concat index key position k
  | some i =>
    by_cases hk : key = k
    · rw [← hk, hkey, Option.some_or]
    · rw [if_neg hk, Option.or_none]

namespace Extension

def classIndex (e : Extension) : List (String × Nat) :=
  e.classes.zipIdx.foldl (fun index (c, i) => recordAbsent index c.name.folded i) []

theorem lookup_classIndex (e : Extension) (k : String) :
    e.classIndex.lookup k = e.classes.findIdx? (·.name.folded = k) := by
  have hfrom : ∀ (index : List (String × Nat)) (start : Nat),
      ((e.classes.zipIdx start).foldl
        (fun index (c, i) => recordAbsent index c.name.folded i) index).lookup k =
      (index.lookup k).or ((e.classes.findIdx? (·.name.folded = k)).map (start + ·)) := by
    induction e.classes with
    | nil => simp
    | cons c rest ih =>
      intro index start
      rw [List.zipIdx_cons, List.foldl_cons, ih, lookup_recordAbsent, List.findIdx?_cons,
        Option.or_assoc]
      by_cases hc : c.name.folded = k
      · simp [hc]
      · simp [hc, Function.comp_def, Nat.add_assoc, Nat.add_comm 1]
  have h := hfrom [] 0
  rw [List.lookup_nil, Option.none_or] at h
  unfold classIndex
  rw [h]
  simp

theorem lookup_bind_classes (e : Extension) (name : QualifiedName) :
    (e.classIndex.lookup name.folded).bind (e.classes[·]?) = e.findClass? name := by
  rw [lookup_classIndex, Sequence.findIdx?_bind_getElem?]
  rfl

end Extension

namespace Hierarchy

def Node.bare (n : Node) : Node := { n with links := [] }

structure Arc (κ : Type) where
  source : κ
  link : Link
  target : κ
deriving DecidableEq, Repr

def Arc.map (f : κ → μ) (a : Arc κ) : Arc μ := ⟨f a.source, a.link, f a.target⟩

/-- The graph while it is drawn: the nodes, their positions by key, and arcs between positions. -/
structure Draft where
  nodes : List Node := []
  index : List (String × Nat) := []
  arcs : List (Arc Nat) := []
deriving DecidableEq, Repr

namespace Draft

def place (d : Draft) (n : Node) : Draft × Nat :=
  match d.index.lookup n.key with
  | some i => (d, i)
  | none =>
    ({ d with nodes := d.nodes ++ [n], index := d.index ++ [(n.key, d.nodes.length)] },
      d.nodes.length)

def connect (i : Nat) (d : Draft) (entry : Link × QualifiedName) : Draft :=
  let target := d.place (.external entry.2)
  { target.1 with arcs := target.1.arcs ++ [⟨i, entry.1, target.2⟩] }

def link (d : Draft) (c : Class) : Draft :=
  match d.index.lookup c.name.folded with
  | some i => (linksOf c).foldl (connect i) d
  | none => d

def ofClasses (classes : List Class) : Draft :=
  let placed := classes.foldl (fun d c => (d.place (Node.ofClass c).bare).1) {}
  Sequence.foldUnseen (·.name.folded) link [] placed classes

def get? (d : Draft) (name : QualifiedName) : Option Node :=
  (d.index.lookup name.folded).bind (d.nodes[·]?)

def supertypes (d : Draft) (name : QualifiedName) : List (Link × Node) :=
  match d.index.lookup name.folded with
  | none => []
  | some i =>
    (d.arcs.filter (·.source = i)).filterMap fun a => d.nodes[a.target]?.map (a.link, ·)

def position (d : Draft) (key : String) : Nat := (d.index.lookup key).getD 0

/-- What a draft holds after the given nodes have been placed and the given arcs between keys have
been drawn. -/
structure Holds (d : Draft) (placed : List Node) (drawn : List (Arc String)) : Prop where
  nodes : d.nodes = Sequence.firstBy (·.key) placed
  index : ∀ k, d.index.lookup k = d.nodes.findIdx? (·.key = k)
  arcs : d.arcs = drawn.map (·.map d.position)
  recorded : ∀ a ∈ drawn, (d.index.lookup a.source).isSome ∧ (d.index.lookup a.target).isSome

theorem holds_empty : Holds {} [] [] where
  nodes := rfl
  index _ := rfl
  arcs := rfl
  recorded _ hx := absurd hx List.not_mem_nil

theorem lookup_place {d : Draft} {k : String} {i : Nat} (h : d.index.lookup k = some i) (n : Node) :
    (d.place n).1.index.lookup k = some i := by
  unfold place
  cases d.index.lookup n.key with
  | some j => exact h
  | none => rw [List.lookup_append, h, Option.some_or]

theorem lookup_place_self (d : Draft) (n : Node) :
    (d.place n).1.index.lookup n.key = some (d.place n).2 := by
  unfold place
  cases hn : d.index.lookup n.key with
  | some i => exact hn
  | none => rw [lookup_concat, hn, Option.none_or, if_pos rfl]

theorem arcs_place (d : Draft) (n : Node) : (d.place n).1.arcs = d.arcs := by
  unfold place
  split <;> rfl

theorem position_eq {d : Draft} {k : String} {i : Nat} (h : d.index.lookup k = some i) :
    d.position k = i := by
  unfold position
  rw [h, Option.getD_some]

section Holds

variable {d : Draft} {placed : List Node} {drawn : List (Arc String)}

theorem Holds.arcs_stay (h : Holds d placed drawn) (n : Node) :
    drawn.map (·.map (d.place n).1.position) = drawn.map (·.map d.position) ∧
      ∀ a ∈ drawn, ((d.place n).1.index.lookup a.source).isSome ∧
        ((d.place n).1.index.lookup a.target).isSome := by
  have hstay : ∀ k, (d.index.lookup k).isSome → ((d.place n).1.index.lookup k).isSome ∧
      (d.place n).1.position k = d.position k := by
    intro k hk
    obtain ⟨i, hi⟩ := Option.isSome_iff_exists.mp hk
    rw [position_eq hi, position_eq (lookup_place hi n), lookup_place hi n]
    exact ⟨rfl, rfl⟩
  constructor
  · refine List.map_congr_left fun a ha => ?_
    unfold Arc.map
    rw [(hstay a.source (h.recorded a ha).1).2, (hstay a.target (h.recorded a ha).2).2]
  · exact fun a ha => ⟨(hstay a.source (h.recorded a ha).1).1,
      (hstay a.target (h.recorded a ha).2).1⟩

theorem Holds.place (h : Holds d placed drawn) (n : Node) :
    Holds (d.place n).1 (placed ++ [n]) drawn := by
  have hany : (Sequence.firstBy (·.key) placed).any (·.key = n.key) =
      (d.index.lookup n.key).isSome := by
    rw [h.index, List.findIdx?_isSome, h.nodes]
  obtain ⟨harcs, hrecorded⟩ := h.arcs_stay n
  refine ⟨?_, ?_, by rw [arcs_place, h.arcs, harcs], hrecorded⟩
  · rw [Sequence.firstBy_concat, hany, ← h.nodes]
    unfold Draft.place
    cases d.index.lookup n.key <;> rfl
  · intro k
    unfold Draft.place
    cases hn : d.index.lookup n.key with
    | some i => exact h.index k
    | none =>
      rw [lookup_concat, List.findIdx?_append, h.index]
      by_cases hk : n.key = k <;> simp [hk]

theorem arcs_connect (d : Draft) (i : Nat) (entry : Link × QualifiedName) :
    (d.connect i entry).arcs = (d.place (.external entry.2)).1.arcs ++
      [⟨i, entry.1, (d.place (.external entry.2)).2⟩] := rfl

theorem Holds.connect (h : Holds d placed drawn) {k : String} {i : Nat}
    (hk : d.index.lookup k = some i) (entry : Link × QualifiedName) :
    Holds (d.connect i entry) (placed ++ [.external entry.2])
      (drawn ++ [⟨k, entry.1, entry.2.folded⟩]) := by
  have hplace := h.place (.external entry.2)
  have hsource : (d.connect i entry).index.lookup k = some i := lookup_place hk _
  have htarget : (d.connect i entry).index.lookup entry.2.folded =
      some (d.place (.external entry.2)).2 := lookup_place_self d (.external entry.2)
  refine ⟨hplace.nodes, hplace.index, ?_, ?_⟩
  · rw [List.map_append, List.map_singleton, arcs_connect, hplace.arcs, Arc.map,
      position_eq hsource, position_eq htarget]
    rfl
  · rw [List.forall_mem_append, List.forall_mem_singleton, hsource, htarget]
    exact ⟨hplace.recorded, rfl, rfl⟩

theorem lookup_connect {k : String} {i : Nat} (h : d.index.lookup k = some i) (j : Nat)
    (entry : Link × QualifiedName) : (d.connect j entry).index.lookup k = some i :=
  lookup_place h (.external entry.2)

theorem lookup_connectAll {k : String} {i : Nat} (h : d.index.lookup k = some i) (j : Nat)
    (entries : List (Link × QualifiedName)) :
    (entries.foldl (Draft.connect j) d).index.lookup k = some i := by
  induction entries generalizing d with
  | nil => exact h
  | cons entry rest ih => exact ih (lookup_connect h j entry)

theorem Holds.connectAll (h : Holds d placed drawn) {k : String} {i : Nat}
    (hk : d.index.lookup k = some i) (entries : List (Link × QualifiedName)) :
    Holds (entries.foldl (Draft.connect i) d)
      (placed ++ entries.map (Node.external ·.2))
      (drawn ++ entries.map fun entry => ⟨k, entry.1, entry.2.folded⟩) := by
  induction entries generalizing d placed drawn with
  | nil => simpa using h
  | cons entry rest ih =>
    have hrest := ih (h.connect hk entry) (lookup_connect hk i entry)
    rwa [List.append_assoc, List.append_assoc] at hrest

def arcsOf (c : Class) : List (Arc String) :=
  (linksOf c).map fun entry => ⟨c.name.folded, entry.1, entry.2.folded⟩

theorem Holds.link (h : Holds d placed drawn) {c : Class}
    (hc : (d.index.lookup c.name.folded).isSome) :
    Holds (d.link c) (placed ++ (linksOf c).map (Node.external ·.2)) (drawn ++ arcsOf c) := by
  obtain ⟨i, hi⟩ := Option.isSome_iff_exists.mp hc
  unfold Draft.link
  rw [hi]
  exact h.connectAll hi (linksOf c)

theorem isSome_lookup_link {k : String} (h : (d.index.lookup k).isSome) (c : Class) :
    ((d.link c).index.lookup k).isSome := by
  obtain ⟨i, hi⟩ := Option.isSome_iff_exists.mp h
  unfold Draft.link
  cases d.index.lookup c.name.folded with
  | none => exact h
  | some j => rw [lookup_connectAll hi]; rfl

theorem Holds.linkAll (h : Holds d placed drawn) {classes : List Class}
    (hclasses : ∀ c ∈ classes, (d.index.lookup c.name.folded).isSome) :
    Holds (classes.foldl Draft.link d)
      (placed ++ classes.flatMap fun c => (linksOf c).map (Node.external ·.2))
      (drawn ++ classes.flatMap arcsOf) := by
  induction classes generalizing d placed drawn with
  | nil => simpa using h
  | cons c rest ih =>
    rw [List.forall_mem_cons] at hclasses
    have hrest := ih (h.link hclasses.1) fun x hx => isSome_lookup_link (hclasses.2 x hx) c
    rwa [List.append_assoc, List.append_assoc] at hrest

theorem Holds.placeAll (h : Holds d placed drawn) (nodes : List Node) :
    Holds (nodes.foldl (fun d n => (d.place n).1) d) (placed ++ nodes) drawn := by
  induction nodes generalizing d placed with
  | nil => simpa using h
  | cons n rest ih =>
    have hrest := ih (h.place n)
    rwa [List.append_assoc] at hrest

end Holds

/-- The nodes of a draft are those of the declared classes and of what the first class with each
name inherits from. -/
theorem holds_ofClasses (classes : List Class) :
    Holds (ofClasses classes)
      (classes.map (Node.bare ∘ Node.ofClass) ++
        (Sequence.firstBy (·.name.folded) classes).flatMap fun c =>
          (linksOf c).map (Node.external ·.2))
      ((Sequence.firstBy (·.name.folded) classes).flatMap arcsOf) := by
  have hplaced := holds_empty.placeAll (classes.map (Node.bare ∘ Node.ofClass))
  rw [List.nil_append, List.foldl_map] at hplaced
  have hseen : (classes.filter fun c => c.name.folded ∉ ([] : List String)) = classes := by simp
  unfold ofClasses
  rw [Sequence.foldUnseen_eq, hseen]
  apply hplaced.linkAll
  intro c hc
  obtain ⟨n, hn, hkey⟩ := Sequence.exists_mem_firstBy Node.key
    (List.mem_map_of_mem (f := Node.bare ∘ Node.ofClass) (Sequence.mem_of_mem_firstBy hc))
  rw [hplaced.index, hplaced.nodes, List.findIdx?_isSome, List.any_eq_true]
  exact ⟨n, hn, decide_eq_true hkey⟩

theorem nodes_ofClasses (classes : List Class) :
    (ofClasses classes).nodes = (Hierarchy.ofClasses classes).nodes.map Node.bare := by
  have hlocals : locals classes = (Sequence.firstBy (·.name.folded) classes).map Node.ofClass :=
    Sequence.firstBy_map _ _ _
  have hmentions : (mentions classes).map Node.bare =
      (Sequence.firstBy (·.name.folded) classes).flatMap fun c =>
        (linksOf c).map (Node.external ·.2) := by
    unfold mentions
    rw [hlocals, List.flatMap_map, List.map_flatMap]
    simp only [List.map_map]
    rfl
  have hnodes : (Hierarchy.ofClasses classes).nodes =
      Sequence.firstBy (·.key) (classes.map Node.ofClass ++ mentions classes) :=
    Sequence.firstBy_firstBy_append _ _ _
  have hbare : (Sequence.firstBy (·.key) (classes.map Node.ofClass ++ mentions classes)).map
      Node.bare = Sequence.firstBy (·.key)
        ((classes.map Node.ofClass ++ mentions classes).map Node.bare) :=
    (Sequence.firstBy_map Node.key Node.bare _).symm
  rw [(holds_ofClasses classes).nodes, hnodes, hbare, List.map_append, List.map_map, hmentions]

theorem find?_nodes_ofClasses (classes : List Class) (k : String) :
    (ofClasses classes).nodes.find? (·.key = k) =
      ((Hierarchy.ofClasses classes).find? k).map Node.bare := by
  rw [nodes_ofClasses, List.find?_map]
  rfl

theorem get?_ofClasses (classes : List Class) (name : QualifiedName) :
    (ofClasses classes).get? name = ((Hierarchy.ofClasses classes).get? name).map Node.bare := by
  unfold get?
  rw [(holds_ofClasses classes).index, Sequence.findIdx?_bind_getElem?, find?_nodes_ofClasses]
  rfl

section Holds

variable {d : Draft} {placed : List Node} {drawn : List (Arc String)}

theorem Holds.key_inj (h : Holds d placed drawn) {k l : String} {i : Nat}
    (hk : d.index.lookup k = some i) (hl : d.index.lookup l = some i) : k = l := by
  have hkey : ∀ {k}, d.index.lookup k = some i → d.nodes[i]?.map (·.key) = some k := by
    intro k hk
    rw [h.index] at hk
    obtain ⟨hlt, hkey, -⟩ := List.findIdx?_eq_some_iff_getElem.mp hk
    rw [List.getElem?_eq_getElem hlt, Option.map_some, of_decide_eq_true hkey]
  exact Option.some.inj ((hkey hk).symm.trans (hkey hl))

theorem Holds.getElem?_position (h : Holds d placed drawn) {k : String}
    (hk : (d.index.lookup k).isSome) : d.nodes[d.position k]? = d.nodes.find? (·.key = k) := by
  obtain ⟨i, hi⟩ := Option.isSome_iff_exists.mp hk
  rw [← Sequence.findIdx?_bind_getElem?, ← h.index, position_eq hi, hi, Option.bind_some]

theorem Holds.supertypes_eq (h : Holds d placed drawn) (name : QualifiedName) :
    d.supertypes name = (drawn.filter (·.source = name.folded)).filterMap fun a =>
      (d.nodes.find? (·.key = a.target)).map (a.link, ·) := by
  unfold supertypes
  cases hname : d.index.lookup name.folded with
  | none =>
    have hnone : drawn.filter (·.source = name.folded) = [] := by
      rw [List.filter_eq_nil_iff]
      intro a ha hsource
      have hrecorded := (h.recorded a ha).1
      rw [of_decide_eq_true hsource, hname] at hrecorded
      exact Bool.false_ne_true hrecorded
    rw [hnone, List.filterMap_nil]
  | some i =>
    -- Arcs are drawn between positions, and different keys have different positions.
    have hsource : ∀ a ∈ drawn, decide (d.position a.source = i) =
        decide (a.source = name.folded) := by
      intro a ha
      obtain ⟨j, hj⟩ := Option.isSome_iff_exists.mp (h.recorded a ha).1
      rw [decide_eq_decide, position_eq hj]
      constructor
      · rintro rfl
        exact h.key_inj hj hname
      · intro heq
        rw [heq, hname] at hj
        exact (Option.some.inj hj).symm
    have hfilter : d.arcs.filter (·.source = i) =
        (drawn.filter (·.source = name.folded)).map (·.map d.position) := by
      rw [h.arcs, List.filter_map]
      exact congrArg _ (List.filter_congr hsource)
    simp only
    rw [hfilter, List.filterMap_map]
    refine List.filterMap_congr fun a ha => ?_
    have htarget := (h.recorded a (List.mem_of_mem_filter ha)).2
    exact congrArg (Option.map (a.link, ·)) (h.getElem?_position htarget)

end Holds

theorem filter_arcsOf (classes : List Class) (k : String) :
    ((Sequence.firstBy (·.name.folded) classes).flatMap arcsOf).filter (·.source = k) =
      (classes.find? (·.name.folded = k)).toList.flatMap arcsOf := by
  have hown : ∀ c : Class, (arcsOf c).filter (·.source = k) =
      if c.name.folded = k then arcsOf c else [] := by
    intro c
    unfold arcsOf
    rw [List.filter_map]
    by_cases hc : c.name.folded = k <;> simp [hc, Function.comp_def]
  have hfirst := Sequence.filter_firstBy (fun c : Class => c.name.folded) classes k
  rw [List.filter_flatMap, ← hfirst]
  simp only [hown]
  induction Sequence.firstBy (fun c : Class => c.name.folded) classes with
  | nil => rfl
  | cons c rest ih =>
    by_cases hc : c.name.folded = k <;> simp [hc, ih]

/-- A draft links the classes that the inheritance graph links. -/
theorem supertypes_ofClasses (classes : List Class) (name : QualifiedName) :
    (ofClasses classes).supertypes name =
      ((Hierarchy.ofClasses classes).supertypes name).map fun (link, n) => (link, n.bare) := by
  rw [(holds_ofClasses classes).supertypes_eq, filter_arcsOf, Hierarchy.supertypes_ofClasses,
    List.map_filterMap]
  cases classes.find? (·.name.folded = name.folded) with
  | none => rfl
  | some c =>
    simp only [Option.toList_some, List.flatMap_singleton, arcsOf, List.filterMap_map]
    refine List.filterMap_congr fun entry _ => ?_
    rw [Function.comp_apply, find?_nodes_ofClasses, Option.map_map, Option.map_map]
    rfl

end Draft

end Hierarchy

end ExtensionHeader
