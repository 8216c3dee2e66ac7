import ExtensionHeader.Proofs.Reading.Property

/-! Argument information and the routines of classes encode types by two sets of rules. Read back,
both give the classes and the mask of the type, for every type that a property may have. -/
namespace ExtensionHeader

open Header Reading

theorem Interner.bind_resolve? {t : Interner} {s : String} (h : s ∈ t.strings)
    (small : t.size ≤ UInt32.size) : (t.get? s).bind t.resolve? = some s := by
  obtain ⟨symbol, hsymbol⟩ := Option.isSome_iff_exists.mp ((t.isSome_get?_iff s).mpr h)
  rw [hsymbol]
  exact resolve?_of_get? hsymbol small

theorem Validation.nodup_of_ofType {location : Location} {t : DeclaredType}
    (h : ofType .property location t = []) : (t.classes.map Identifier.ofName).Nodup := by
  cases t with
  | scalar kind => exact List.nodup_nil
  | cls q => exact List.nodup_singleton _
  | union u =>
    change ofUnion .property location u = [] at h
    unfold ofUnion at h
    split at h
    · contradiction
    · simp only [List.append_eq_nil_iff] at h
      exact nodup_ofUnionClass h.1.1.1

namespace Header

variable {interner : Interner}

theorem holdClasses_eq (property : String) {classes : List QualifiedName}
    (h : ∀ q ∈ classes, q.display ∈ interner.strings) (small : interner.size ≤ UInt32.size) :
    holdClasses interner property classes = .ok (holding property classes) := by
  induction classes with
  | nil => rfl
  | cons q rest ih =>
    have hq := Interner.bind_resolve? (h q List.mem_cons_self) small
    have hrest := ih fun r hr => h r (List.mem_cons_of_mem q hr)
    unfold holdClasses
    rw [hq, hrest]
    rfl

theorem storeType_eq {p : Property} {t : DeclaredType} (htype : p.type? = some t)
    (h : ∀ q ∈ t.classes, q.display ∈ interner.strings) (small : interner.size ≤ UInt32.size)
    {made : List Statement} (hmade : makeType p.name t = .ok made) :
    storeType interner p = .ok (holding p.name t.classes ++ made) := by
  unfold storeType
  simp only [htype, holdClasses_eq p.name h small, hmade]
  rfl

end Header

namespace Reading

/-- A list with room for `classes` that holds each one in its slot. -/
structure ListReading.IsListOf (list : ListReading) (classes : List QualifiedName) : Prop where
  size : list.size = classes.length
  count : list.count = classes.length
  indices : list.slots.map Prod.fst = List.range classes.length
  slot : ∀ index q, (index, q) ∈ list.slots ↔ classes[index]? = some q

def listOf (classes : List QualifiedName) : ListReading :=
  ⟨classes.length, classes.length, classes.zipIdx.map fun (q, index) => (index, q)⟩

theorem isListOf_listOf (classes : List QualifiedName) : (listOf classes).IsListOf classes where
  size := rfl
  count := rfl
  indices := by
    unfold listOf
    rw [List.map_map, List.range_eq_range', ← List.zipIdx_map_snd]
    rfl
  slot := by
    intro index q
    have hmem : (index, q) ∈ (listOf classes).slots ↔ (q, index) ∈ classes.zipIdx := by
      constructor
      · intro h
        obtain ⟨entry, hentry, heq⟩ := List.mem_map.mp h
        cases heq
        exact hentry
      · exact fun h => List.mem_map.mpr ⟨(q, index), h, rfl⟩
    rw [hmem]
    exact List.mem_zipIdx_iff_getElem?

def listOf? : DeclaredType → Option ListReading
  | .union u => if u.classes.isEmpty then none else some (listOf u.classes)
  | _ => none

theorem listOf?_union (u : UnionType) :
    listOf? (.union u) = if u.classes.isEmpty then none else some (listOf u.classes) := rfl

theorem isListOf_of_listOf? {t : DeclaredType} {list : ListReading} (h : listOf? t = some list) :
    list.IsListOf t.classes := by
  cases t with
  | union u =>
    rw [listOf?_union] at h
    split at h
    · contradiction
    · cases h
      exact isListOf_listOf u.classes
  | _ => contradiction

theorem exists_toList_of_type {property : String} {line : String} {rest : List Char}
    (h : line.toList = ("zend_type " ++ Variable.type property ++ " = ").toList ++ rest) :
    ∃ rest, line.toList = "zend_type".toList ++ rest := by
  rw [String.toList_append, String.toList_append, List.append_assoc] at h
  exact ⟨_, h⟩

theorem property?_makeType {t : DeclaredType} {location : Location} (hbuilt : t.IsBuilt)
    (hvalid : ∀ q ∈ t.classes, q.IsValid)
    (haccepted : Validation.ofType .property location t = []) (property : String) :
    ∃ made, makeType property t = .ok made ∧
      property? property ((holding property t.classes ++ made).map (·.text)) =
        some ⟨⟨t.classes, t.mask⟩, listOf? t⟩ := by
  have hnodup := Validation.nodup_of_ofType haccepted
  simp only [List.map_append]
  cases t with
  | scalar kind =>
    obtain ⟨rest, hline⟩ := exists_toList_of_type (toList_maskType property kind.mask)
    exact ⟨_, rfl, property?_single hvalid hline (single?_maskType kind.named_mask)⟩
  | cls q =>
    obtain ⟨rest, hline⟩ := exists_toList_of_type (toList_classType property q)
    exact ⟨_, rfl, property?_single hvalid hline
      (single?_classType (lookup_map_of_nodup hnodup List.mem_cons_self))⟩
  | union u =>
    have hregular := hbuilt.regular
    have hnonempty := (UnionType.declarable_of_ofUnion haccepted).nonempty
    cases hempty : u.classes.isEmpty with
    | true =>
      have hmade : makeType property (.union u) =
          .ok [.maskType (Variable.type property) u.mask] := by
        simp only [makeType, hnonempty, hempty]
        rfl
      have hclasses : (DeclaredType.union u).classes = [] := List.isEmpty_iff.mp hempty
      obtain ⟨rest, hline⟩ := exists_toList_of_type (toList_maskType property u.mask)
      rw [hclasses] at hvalid ⊢
      rw [listOf?_union, hempty, if_pos rfl]
      exact ⟨_, hmade, property?_single hvalid hline (single?_maskType hregular.named_mask)⟩
    | false =>
      have hmade : makeType property (.union u) =
          .ok (listing property u.classes u.mask) := by
        simp only [makeType, hnonempty, hempty]
        rfl
      rw [listOf?_union, hempty, if_neg Bool.false_ne_true]
      exact ⟨_, hmade, property?_listing hvalid hnodup hregular.named_mask⟩

theorem isSome_listOf?_iff (t : DeclaredType) :
    (listOf? t).isSome = true ↔ ∃ u, t = .union u ∧ u.classes ≠ [] := by
  cases t with
  | union u =>
    rw [listOf?_union]
    cases hclasses : u.classes with
    | nil => simp [hclasses]
    | cons q rest => simp [hclasses]
  | _ => simp [listOf?]

/-- Arguments, results and properties encode a type that a property may have alike: each text is
read back as the classes of the type in order and its mask. A list is made exactly for the unions
that have classes, with one slot for each class in order. The names of the classes come from an
interner that holds them and whose symbols do not wrap around. -/
theorem types_read_alike {t : DeclaredType} {location : Location} (hbuilt : t.IsBuilt)
    (hvalid : ∀ q ∈ t.classes, q.IsValid)
    (haccepted : Validation.ofType .property location t = []) :
    (∀ p : Parameter, p.type? = some t →
      type? [Text.bit p.byReference, p.name] (argument p) = some ⟨t.classes, t.mask⟩) ∧
    (∀ (name : String) (s : Signature), s.returns? = some t →
      type? [name, Text.bit s.returnsReference, toString s.required] (opening name s) =
        some ⟨t.classes, t.mask⟩) ∧
    (∀ (interner : Interner) (p : Property), p.type? = some t →
      (∀ q ∈ t.classes, q.display ∈ interner.strings) → interner.size ≤ UInt32.size →
      ∃ statements list?, storeType interner p = .ok statements ∧
        property? p.name (statements.map (·.text)) = some ⟨⟨t.classes, t.mask⟩, list?⟩ ∧
        (list?.isSome = true ↔ ∃ u, t = .union u ∧ u.classes ≠ []) ∧
        ∀ list, list? = some list → list.IsListOf t.classes) := by
  obtain ⟨hlegible, hmeaning⟩ := ArgType.meaning_of hbuilt hvalid haccepted
  refine ⟨?_, ?_, ?_⟩
  · intro p htype
    rw [← htype] at hlegible hmeaning
    rw [type?_argument hlegible, hmeaning]
  · intro name s hreturns
    rw [← hreturns] at hlegible hmeaning
    rw [type?_opening hlegible, hmeaning]
  · intro interner p htype hinterned small
    obtain ⟨made, hmade, hread⟩ := property?_makeType hbuilt hvalid haccepted p.name
    exact ⟨_, listOf? t, storeType_eq htype hinterned small hmade, hread, isSome_listOf?_iff t,
      fun _ h => isListOf_of_listOf? h⟩

def cell : DeclaredType :=
  .union (UnionType.ofSteps
    [.cls ⟨["Db"], "Row"⟩, .scalar .bool, .cls ⟨[], "Countable"⟩, .nullable])

theorem types_read_alike_cell :
    type? ["0", "cell"] (argument { name := "cell", type? := some cell }) =
      some ⟨[⟨["Db"], "Row"⟩, ⟨[], "Countable"⟩], ⟨0xe⟩⟩ ∧
    ∃ statements list, storeType (Interner.ofList ["Db\\Row", "Countable"])
        { name := "cell", type? := some cell } = .ok statements ∧
      property? "cell" (statements.map (·.text)) =
        some ⟨⟨[⟨["Db"], "Row"⟩, ⟨[], "Countable"⟩], ⟨0xe⟩⟩, some list⟩ ∧
      list.size = 2 ∧ list.count = 2 ∧ list.slots.map Prod.fst = [0, 1] := by
  have hbuilt : cell.IsBuilt := DeclaredType.isBuilt_ofSteps _
  have hvalid : ∀ q ∈ cell.classes, q.IsValid := by
    unfold QualifiedName.IsValid
    decide +kernel
  have haccepted : Validation.ofType .property .extension cell = [] := by decide +kernel
  obtain ⟨hargument, -, hproperty⟩ := types_read_alike hbuilt hvalid haccepted
  obtain ⟨statements, list?, hstore, hread, hlist, hslots⟩ :=
    hproperty (Interner.ofList ["Db\\Row", "Countable"]) { name := "cell", type? := some cell } rfl
      (by decide +kernel) (by decide +kernel)
  obtain ⟨list, rfl⟩ := Option.isSome_iff_exists.mp (hlist.mpr ⟨_, rfl, by decide⟩)
  have h := hslots list rfl
  exact ⟨hargument { name := "cell", type? := some cell } rfl, statements, list, hstore, hread,
    h.size, h.count, h.indices⟩

end Reading

end ExtensionHeader
