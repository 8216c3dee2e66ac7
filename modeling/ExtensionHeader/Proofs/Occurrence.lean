import ExtensionHeader.Proofs.Interner
import ExtensionHeader.Proofs.Modes

/-! Where the declarations of an extension use class names. A place is an address in them, whether
something stands there or not, and what is read at a place is found by looking it up there. The
references of an extension are what is read at its places, from the first to the last. -/
namespace ExtensionHeader

inductive Part where
  | whole
  | member (index : Nat)
deriving DecidableEq, Repr

inductive Spot where
  | type (part : Part)
  /-- The class of the constant that is the default. -/
  | default
deriving DecidableEq, Repr

inductive Site where
  | parameter (index : Nat) (spot : Spot)
  | result (part : Part)
deriving DecidableEq, Repr

inductive Member where
  | parent
  | interface (index : Nat)
  | method (index : Nat) (site : Site)
  | property (index : Nat) (spot : Spot)
deriving DecidableEq, Repr

/-- Where an extension may use a class. -/
inductive Place where
  | function (index : Nat) (site : Site)
  | cls (index : Nat) (member : Member)
deriving DecidableEq, Repr

/-! The keys of places are in lexicographic order when the places are in declaration order. -/

def Part.key : Part → List Nat
  | whole => [0]
  | member index => [1, index]

def Spot.key : Spot → List Nat
  | type part => 0 :: part.key
  | default => [1]

def Site.key : Site → List Nat
  | parameter index spot => 0 :: index :: spot.key
  | result part => 1 :: part.key

def Member.key : Member → List Nat
  | parent => [0]
  | interface index => [1, index]
  | method index site => 2 :: index :: site.key
  | property index spot => 3 :: index :: spot.key

def Place.key : Place → List Nat
  | function index site => 0 :: index :: site.key
  | cls index member => 1 :: index :: member.key

def Part.read (location : Location) : Option DeclaredType → Part → Option Reference
  | some (.cls name), whole => some ⟨name, location⟩
  | some (.union members), member index => members.classes[index]?.map (⟨·, location⟩)
  | _, _ => none

def Spot.read (location : Location) (type? : Option DeclaredType) :
    Option DefaultValue → Spot → Option Reference
  | _, type part => part.read location type?
  | some (.constant cls _), default => some ⟨cls, location⟩
  | _, default => none

def Site.read (location : Location) (s : Signature) : Site → Option Reference
  | parameter index spot =>
    s.parameters[index]?.bind fun p => spot.read (.parameter location p.name) p.type? p.default?
  | result part => part.read location s.returns?

def Member.read (c : Class) : Member → Option Reference
  | parent => c.parent?.map (⟨·, .cls c.name⟩)
  | interface index => c.interfaces[index]?.map (⟨·, .cls c.name⟩)
  | method index site =>
    c.methods[index]?.bind fun m => site.read (.method c.name m.name) m.signature
  | property index spot =>
    c.properties[index]?.bind fun p => spot.read (.property c.name p.name) p.type? p.default?

def Place.read (e : Extension) : Place → Option Reference
  | function index site =>
    e.functions[index]?.bind fun f => site.read (.function f.name) f.signature
  | cls index member => e.classes[index]?.bind member.read

/-- The elements of `xs` are what is read at the addresses of a kind: each address at which
something stands is visited once, and a smaller key is visited first. -/
def Visits (key : ι → List Nat) (read : ι → Option α) (kind : ι → Prop) (xs : List α) : Prop :=
  ∃ addresses : List ι, addresses.Pairwise (key · < key ·) ∧
    (∀ a, a ∈ addresses ↔ kind a ∧ (read a).isSome) ∧ addresses.map read = xs.map some

namespace Visits

variable {key : ι → List Nat} {read : ι → Option α} {kind others : ι → Prop} {xs ys : List α}

theorem append (first : Visits key read kind xs) (second : Visits key read others ys)
    (before : ∀ a b, kind a → others b → key a < key b) :
    Visits key read (fun a => kind a ∨ others a) (xs ++ ys) := by
  obtain ⟨as, ordered, hmem, hread⟩ := first
  obtain ⟨bs, ordered', hmem', hread'⟩ := second
  refine ⟨as ++ bs, ?_, ?_, by rw [List.map_append, List.map_append, hread, hread']⟩
  · rw [List.pairwise_append]
    refine ⟨ordered, ordered', fun a ha b hb => ?_⟩
    exact before a b ((hmem a).mp ha).1 ((hmem' b).mp hb).1
  · intro a
    rw [List.mem_append, hmem, hmem', or_and_right]

theorem single (a : ι) : Visits key read (· = a) (read a).toList := by
  cases h : read a with
  | none =>
    refine ⟨[], List.Pairwise.nil, fun b => ?_, rfl⟩
    constructor
    · exact fun hb => absurd hb List.not_mem_nil
    · rintro ⟨rfl, hsome⟩
      rw [h] at hsome
      exact absurd hsome Bool.false_ne_true
  | some x =>
    refine ⟨[a], List.pairwise_singleton _ a, fun b => ?_, by rw [List.map_singleton, h]; rfl⟩
    rw [List.mem_singleton]
    constructor
    · rintro rfl
      exact ⟨rfl, by rw [h]; rfl⟩
    · exact And.left

theorem nested_lt_iff {tag i j : Nat} {s t : List Nat} :
    tag :: i :: s < tag :: j :: t ↔ i < j ∨ i = j ∧ s < t := by
  simp [List.cons_lt_cons_iff]

theorem pairwise_nested {outer : List γ} {inside : γ → List κ} {key' : κ → List Nat}
    (address : Nat → κ → ι) (tag : Nat) (hkey : ∀ i b, key (address i b) = tag :: i :: key' b)
    (hordered : ∀ x ∈ outer, (inside x).Pairwise (key' · < key' ·)) :
    (outer.zipIdx.flatMap fun entry => (inside entry.1).map (address entry.2)).Pairwise
      (key · < key ·) := by
  rw [List.pairwise_flatMap]
  constructor
  · rintro ⟨x, i⟩ hx
    rw [List.pairwise_map]
    apply (hordered x (List.mem_of_getElem? (List.mk_mem_zipIdx_iff_getElem?.mp hx))).imp
    intro a b hab
    rw [hkey, hkey, nested_lt_iff]
    exact .inr ⟨rfl, hab⟩
  · have hpositions : outer.zipIdx.Pairwise (·.2 < ·.2) := by
      rw [← List.pairwise_map, List.zipIdx_map_snd]
      exact List.pairwise_lt_range'
    apply hpositions.imp
    rintro ⟨x, i⟩ ⟨y, j⟩ hij a ha b hb
    obtain ⟨a, -, rfl⟩ := List.mem_map.mp ha
    obtain ⟨b, -, rfl⟩ := List.mem_map.mp hb
    rw [hkey, hkey, nested_lt_iff]
    exact .inl hij

/-- Addresses inside the elements of a list, each made of the position of an element and of an
address inside it. -/
theorem nested {outer : List γ} {key' : κ → List Nat} {read' : γ → κ → Option α} {g : γ → List α}
    (address : Nat → κ → ι) (tag : Nat) (hkey : ∀ i b, key (address i b) = tag :: i :: key' b)
    (hread : ∀ i b, read (address i b) = outer[i]?.bind fun x => read' x b)
    (inner : ∀ x ∈ outer, Visits key' (read' x) (fun _ => True) (g x)) :
    Visits key read (fun a => ∃ i b, a = address i b) (outer.flatMap g) := by
  -- Inside each element the addresses are chosen once, so that all of them can be put in one list.
  choose! inside hordered hmem hinside using inner
  have hat : ∀ {i : Nat} {x : γ}, (x, i) ∈ outer.zipIdx → outer[i]? = some x :=
    fun h => List.mk_mem_zipIdx_iff_getElem?.mp h
  refine ⟨_, pairwise_nested address tag hkey hordered, fun a => ?_, ?_⟩
  · rw [List.mem_flatMap]
    constructor
    · rintro ⟨⟨x, i⟩, hx, ha⟩
      obtain ⟨b, hb, rfl⟩ := List.mem_map.mp ha
      rw [hread, hat hx, Option.bind_some]
      exact ⟨⟨i, b, rfl⟩, ((hmem x (List.mem_of_getElem? (hat hx)) b).mp hb).2⟩
    · rintro ⟨⟨i, b, rfl⟩, hsome⟩
      obtain ⟨r, hr⟩ := Option.isSome_iff_exists.mp hsome
      rw [hread] at hr
      obtain ⟨x, hx, hb⟩ := Option.bind_eq_some_iff.mp hr
      refine ⟨(x, i), List.mk_mem_zipIdx_iff_getElem?.mpr hx, List.mem_map_of_mem ?_⟩
      rw [hmem x (List.mem_of_getElem? hx), hb]
      exact ⟨trivial, rfl⟩
  · have hpieces : ∀ entry ∈ outer.zipIdx,
        ((inside entry.1).map (address entry.2)).map read = (g entry.1).map some := by
      rintro ⟨x, i⟩ hx
      rw [← hinside x (List.mem_of_getElem? (hat hx)), List.map_map]
      refine List.map_congr_left fun b _ => ?_
      rw [Function.comp_apply, hread, hat hx, Option.bind_some]
    rw [List.map_flatMap, List.flatMap_congr hpieces, List.map_flatMap]
    conv_rhs => rw [← List.zipIdx_map_fst 0 outer, List.flatMap_map]

theorem positions (address : Nat → ι) (tag : Nat) (hkey : ∀ i, key (address i) = [tag, i])
    (hread : ∀ i, read (address i) = xs[i]?) :
    Visits key read (fun a => ∃ i, a = address i) xs := by
  have inner : ∀ x ∈ xs, Visits (fun _ : Unit => []) (fun _ => some x) (fun _ => True) [x] :=
    fun x _ => ⟨[()], List.pairwise_singleton _ _, fun _ => by simp, rfl⟩
  have h : Visits key read _ (xs.flatMap fun x => [x]) :=
    nested (fun i _ => address i) tag (fun i _ => hkey i)
      (fun i _ => by rw [hread, Option.bind_fun_some]) inner
  rw [List.flatMap_singleton'] at h
  obtain ⟨addresses, ordered, hmem, hvisited⟩ := h
  exact ⟨addresses, ordered, fun a => by simpa using hmem a, hvisited⟩

theorem inside {key' : κ → List Nat} {read' : κ → Option α} (address : κ → ι) (tag : Nat)
    (hkey : ∀ b, key (address b) = tag :: key' b) (hread : ∀ b, read (address b) = read' b)
    (inner : Visits key' read' (fun _ => True) xs) :
    Visits key read (fun a => ∃ b, a = address b) xs := by
  obtain ⟨addresses, ordered, hmem, hvisited⟩ := inner
  refine ⟨addresses.map address, ?_, fun a => ?_, ?_⟩
  · rw [List.pairwise_map]
    apply ordered.imp
    intro a b hab
    rw [hkey, hkey, List.cons_lt_cons_iff]
    exact .inr ⟨rfl, hab⟩
  · rw [List.mem_map]
    constructor
    · rintro ⟨b, hb, rfl⟩
      rw [hread]
      exact ⟨⟨b, rfl⟩, ((hmem b).mp hb).2⟩
    · rintro ⟨⟨b, rfl⟩, hsome⟩
      rw [hread] at hsome
      exact ⟨b, (hmem b).mpr ⟨trivial, hsome⟩, rfl⟩
  · rw [List.map_map, ← hvisited]
    exact List.map_congr_left fun b _ => hread b

theorem all (h : Visits key read kind xs) (hkind : ∀ a, kind a) :
    Visits key read (fun _ => True) xs := by
  obtain ⟨addresses, ordered, hmem, hvisited⟩ := h
  refine ⟨addresses, ordered, fun a => ?_, hvisited⟩
  rw [hmem, and_iff_right (hkind a), true_and]

end Visits

theorem Visits.mem_iff {key : ι → List Nat} {read : ι → Option α} {xs : List α}
    (h : Visits key read (fun _ => True) xs) (x : α) : x ∈ xs ↔ ∃ a, read a = some x := by
  obtain ⟨addresses, -, hmem, hvisited⟩ := h
  have hx : x ∈ xs ↔ some x ∈ addresses.map read := by
    rw [hvisited]
    simp
  rw [hx, List.mem_map]
  constructor
  · rintro ⟨a, -, ha⟩
    exact ⟨a, ha⟩
  · rintro ⟨a, ha⟩
    exact ⟨a, (hmem a).mpr ⟨trivial, by rw [ha]; rfl⟩, ha⟩

theorem Part.visits (location : Location) (type? : Option DeclaredType) :
    Visits Part.key (Part.read location type?) (fun _ => True)
      (((type?.map (·.classes)).getD []).map (Reference.mk · location)) := by
  have hall : ∀ members : List Reference,
      (∀ i, Part.read location type? (.member i) = members[i]?) →
      Visits Part.key (Part.read location type?) (fun _ => True)
        ((Part.read location type? .whole).toList ++ members) := by
    intro members hread
    have hwhole : Visits Part.key (Part.read location type?) _ _ := .single .whole
    have hmembers : Visits Part.key (Part.read location type?) _ members :=
      .positions .member 1 (fun _ => rfl) hread
    refine (hwhole.append hmembers ?_).all ?_
    · rintro _ _ rfl ⟨i, rfl⟩
      simp [Part.key, List.cons_lt_cons_iff]
    · rintro (_ | i)
      · exact .inl rfl
      · exact .inr ⟨i, rfl⟩
  rcases type? with _ | kind | name | members
  · exact hall [] fun _ => rfl
  · exact hall [] fun _ => rfl
  · exact hall [] fun _ => rfl
  · exact hall _ fun _ => List.getElem?_map.symm

theorem Spot.visits (location : Location) (type? : Option DeclaredType)
    (default? : Option DefaultValue) :
    Visits Spot.key (Spot.read location type? default?) (fun _ => True)
      (Reference.ofValue location type? default?) := by
  have htype : Visits Spot.key (Spot.read location type? default?) _ _ :=
    .inside .type 0 (fun _ => rfl) (fun _ => by cases default? <;> rfl) (Part.visits location type?)
  have hdefault : Visits Spot.key (Spot.read location type? default?) _ _ := .single .default
  have hvalue : Reference.ofValue location type? default? =
      ((type?.map (·.classes)).getD []).map (Reference.mk · location) ++
        (Spot.read location type? default? .default).toList := by
    unfold Reference.ofValue
    rw [List.map_append]
    rcases default? with _ | _ | _ | _ | _ | _ | _ | ⟨cls, name⟩ <;> rfl
  rw [hvalue]
  refine (htype.append hdefault ?_).all ?_
  · rintro _ _ ⟨part, rfl⟩ rfl
    simp [Spot.key, List.cons_lt_cons_iff]
  · rintro (part | _)
    · exact .inl ⟨part, rfl⟩
    · exact .inr rfl

theorem Site.visits (location : Location) (s : Signature) :
    Visits Site.key (Site.read location s) (fun _ => True) (Reference.ofSignature location s) := by
  have hparameters : Visits Site.key (Site.read location s) _ _ :=
    .nested .parameter 0 (fun _ _ => rfl) (fun _ _ => rfl) fun p _ =>
      Spot.visits (.parameter location p.name) p.type? p.default?
  have hresult : Visits Site.key (Site.read location s) _ _ :=
    .inside .result 1 (fun _ => rfl) (fun _ => rfl) (Part.visits location s.returns?)
  have hsignature : Reference.ofSignature location s =
      (s.parameters.flatMap fun p =>
        Reference.ofValue (.parameter location p.name) p.type? p.default?) ++
        ((s.returns?.map (·.classes)).getD []).map (Reference.mk · location) := by
    unfold Reference.ofSignature
    rw [Reference.ofValue, Option.bind_none, Option.toList_none, List.append_nil]
  rw [hsignature]
  refine (hparameters.append hresult ?_).all ?_
  · rintro _ _ ⟨i, spot, rfl⟩ ⟨part, rfl⟩
    simp [Site.key, List.cons_lt_cons_iff]
  · rintro (⟨i, spot⟩ | part)
    · exact .inl ⟨i, spot, rfl⟩
    · exact .inr ⟨part, rfl⟩

theorem Member.visits (c : Class) :
    Visits Member.key (Member.read c) (fun _ => True) (Reference.ofClass c) := by
  have hparent : Visits Member.key (Member.read c) _ _ := .single .parent
  have hinterfaces : Visits Member.key (Member.read c) _
      (c.interfaces.map (Reference.mk · (.cls c.name))) :=
    .positions Member.interface 1 (fun _ => rfl) (fun _ => List.getElem?_map.symm)
  have hmethods : Visits Member.key (Member.read c) _ _ :=
    .nested .method 2 (fun _ _ => rfl) (fun _ _ => rfl) fun m _ =>
      Site.visits (.method c.name m.name) m.signature
  have hproperties : Visits Member.key (Member.read c) _ _ :=
    .nested .property 3 (fun _ _ => rfl) (fun _ _ => rfl) fun p _ =>
      Spot.visits (.property c.name p.name) p.type? p.default?
  have hsupertypes : c.supertypes.map (Reference.mk · (.cls c.name)) =
      (Member.read c .parent).toList ++ c.interfaces.map (Reference.mk · (.cls c.name)) := by
    unfold Class.supertypes Member.read
    rw [List.map_append, Option.toList_map]
  unfold Reference.ofClass
  rw [hsupertypes]
  -- The first number of a key tells the four kinds apart.
  refine (((hparent.append hinterfaces ?_).append hmethods ?_).append hproperties ?_).all ?_
  · rintro _ _ rfl ⟨i, rfl⟩
    simp [Member.key, List.cons_lt_cons_iff]
  · rintro _ _ (rfl | ⟨i, rfl⟩) ⟨j, site, rfl⟩ <;> simp [Member.key, List.cons_lt_cons_iff]
  · rintro _ _ ((rfl | ⟨i, rfl⟩) | ⟨i, site, rfl⟩) ⟨j, spot, rfl⟩ <;>
      simp [Member.key, List.cons_lt_cons_iff]
  · rintro (_ | i | ⟨i, site⟩ | ⟨i, spot⟩)
    · exact .inl (.inl (.inl rfl))
    · exact .inl (.inl (.inr ⟨i, rfl⟩))
    · exact .inl (.inr ⟨i, site, rfl⟩)
    · exact .inr ⟨i, spot, rfl⟩

/-- The references of an extension are what is read at its places. -/
theorem Place.visits (e : Extension) :
    Visits Place.key (Place.read e) (fun _ => True) e.references := by
  have hfunctions : Visits Place.key (Place.read e) _ (e.functions.flatMap Reference.ofFunction) :=
    .nested .function 0 (fun _ _ => rfl) (fun _ _ => rfl) fun f _ =>
      Site.visits (.function f.name) f.signature
  have hclasses : Visits Place.key (Place.read e) _ (e.classes.flatMap Reference.ofClass) :=
    .nested .cls 1 (fun _ _ => rfl) (fun _ _ => rfl) fun c _ => Member.visits c
  refine (hfunctions.append hclasses ?_).all ?_
  · rintro _ _ ⟨i, site, rfl⟩ ⟨j, member, rfl⟩
    simp [Place.key, List.cons_lt_cons_iff]
  · rintro (⟨i, site⟩ | ⟨i, member⟩)
    · exact .inl ⟨i, site, rfl⟩
    · exact .inr ⟨i, member, rfl⟩

namespace Extension

def declaredTexts (e : Extension) : List String :=
  e.namespaceText :: e.classes.map (·.name.display) ++ e.functionNamespaces.map QualifiedName.joined

theorem interner_eq (e : Extension) :
    e.interner = (Interner.ofList e.declaredTexts).internAll (e.references.map (·.name.display)) :=
  List.foldl_append

theorem exists_symbol? {e : Extension} {r : Reference} (hr : r ∈ e.references) :
    ∃ symbol, e.symbol? r = some symbol := by
  have hmem : r.name.display ∈ e.interner.strings := by
    unfold interner
    rw [Interner.mem_strings_ofList]
    exact List.mem_append_right _ (List.mem_map_of_mem hr)
  exact Option.isSome_iff_exists.mp ((e.interner.isSome_get?_iff _).mpr hmem)

theorem unresolved_eq_nil_iff (e : Extension) :
    e.unresolved = [] ↔
      ∀ s ∈ e.references.map (·.name.folded), s ∈ e.classes.map (·.name.folded) := by
  unfold unresolved
  rw [List.filter_eq_nil_iff, List.forall_mem_map]
  simp only [decide_eq_true_eq, not_not]

theorem exists_class_of_closedWorld {e : Extension} (h : (e.validate .closedWorld).errors = [])
    {r : Reference} (hr : r ∈ e.references) : ∃ c ∈ e.classes, c.name.folded = r.name.folded := by
  have hwarnings := ((Validation.closedWorld_eq_nil_iff e).mp h).2
  have hnone := (unresolved_eq_nil_iff e).mp (List.map_eq_nil_iff.mp hwarnings)
  exact List.mem_map.mp (hnone _ (List.mem_map_of_mem hr))

/-- The references of an extension are its uses of class names, each once and in declaration order.
Their texts are interned after those of the declarations, and a reference keeps the symbol that its
text is given when the reference is visited. -/
theorem references_are_uses (e : Extension) :
    (∃ places : List Place, places.Pairwise (·.key < ·.key) ∧
      (∀ p, p ∈ places ↔ (p.read e).isSome) ∧
      places.map (·.read e) = e.references.map some) ∧
    (e.interner.strings.Nodup ∧
      e.interner.strings =
        (e.namespaceText :: e.classes.map (·.name.display) ++
          e.functionNamespaces.map QualifiedName.joined ++
          e.references.map (·.name.display)).eraseDups) ∧
    (((Interner.ofList e.declaredTexts).give (e.references.map (·.name.display))).1 = e.interner ∧
      ((Interner.ofList e.declaredTexts).give (e.references.map (·.name.display))).2.map some =
        e.references.map e.symbol?) ∧
    (e.interner.size ≤ UInt32.size → ∀ r ∈ e.references,
      ∃ symbol, e.symbol? r = some symbol ∧ e.interner.resolve? symbol = some r.name.display) ∧
    ((e.validate .closedWorld).errors = [] → ∀ p r, Place.read e p = some r →
      ∃ c ∈ e.classes, c.name.display.toLower = r.name.display.toLower) := by
  refine ⟨?_, ⟨Interner.nodup_strings_ofList _, Interner.strings_ofList _⟩, ⟨?_, ?_⟩, ?_, ?_⟩
  · obtain ⟨places, ordered, hmem, hread⟩ := Place.visits e
    exact ⟨places, ordered, fun p => by rw [hmem, true_and], hread⟩
  · rw [Interner.fst_give, interner_eq]
  · rw [Interner.snd_give, ← interner_eq, List.map_map]
    rfl
  · intro small r hr
    obtain ⟨symbol, hsymbol⟩ := exists_symbol? hr
    exact ⟨symbol, hsymbol, Interner.resolve?_of_get? hsymbol small⟩
  · intro h p r hr
    exact exists_class_of_closedWorld h (((Place.visits e).mem_iff r).mpr ⟨p, hr⟩)

def shapes : Extension where
  path := ["Geo"]
  functions := [{
    name := ⟨["Geo"], "pick"⟩
    signature := {
      parameters := [
        { name := "a"
          type? := some (.union ⟨[⟨["Geo"], "Disc"⟩, ⟨["geo"], "shape"⟩], .empty, true⟩) },
        { name := "b", default? := some (.constant ⟨["Geo"], "Disc"⟩ "UNIT") }]
      returns? := some (.cls ⟨["GEO"], "Shape"⟩) } }]
  classes := [
    { name := ⟨["Geo"], "Shape"⟩,
      properties := [{ name := "hull", type? := some (.cls ⟨["Geo"], "Disc"⟩) }] },
    { name := ⟨["Geo"], "Disc"⟩, parent? := some ⟨["Geo"], "Shape"⟩ }]

theorem references_are_uses_shapes :
    (∃ places : List Place, places.length = 6 ∧ places.Pairwise (·.key < ·.key) ∧
      places.map (·.read shapes) = shapes.references.map some) ∧
    shapes.interner.strings =
      ["Geo", "Geo\\Shape", "Geo\\Disc", "geo\\shape", "GEO\\Shape"] ∧
    (∀ r ∈ shapes.references, ∃ symbol, shapes.symbol? r = some symbol ∧
      shapes.interner.resolve? symbol = some r.name.display) ∧
    ∀ p r, Place.read shapes p = some r →
      ∃ c ∈ shapes.classes, c.name.display.toLower = r.name.display.toLower := by
  obtain ⟨⟨places, ordered, -, hread⟩, ⟨-, hstrings⟩, -, hresolve, hclosed⟩ :=
    references_are_uses shapes
  have hunresolved : shapes.unresolved = [] := by
    have hdeclared : shapes.classes.map (·.name.folded) = ["geo\\shape", "geo\\disc"] := by
      decide +kernel
    have hused : shapes.references.map (·.name.folded) =
        ["geo\\disc", "geo\\shape", "geo\\disc", "geo\\shape", "geo\\disc", "geo\\shape"] := by
      decide +kernel
    rw [unresolved_eq_nil_iff, hdeclared, hused]
    decide
  have herrors : (shapes.validate .closedWorld).errors = [] := by
    rw [Validation.closedWorld_eq_nil_iff]
    refine ⟨by decide +kernel, ?_⟩
    unfold validate Validation.undeclared
    rw [hunresolved, List.map_nil]
  refine ⟨⟨places, ?_, ordered, hread⟩, ?_, hresolve (by decide +kernel), hclosed herrors⟩
  · rw [← List.length_map (·.read shapes), hread]
    decide +kernel
  · rw [hstrings]
    decide +kernel

end Extension

end ExtensionHeader
