import ExtensionHeader.Proofs.Reading.Act

/-! What the text of a registration routine does to the strings and lists that it makes. The lines
for a property make its handles, use them and settle each one once: a string that the routine holds
is released behind the declaration of the property, and what a value or a type owns is handed over. -/
namespace ExtensionHeader

open Header Reading

namespace Header

def custody : Trace Act where
  makeString := .hold
  holdString := .hold
  giveString := .give
  copyString := .copy
  makeList := .allocate
  handList := .hand
  declare := .declare
  releaseString := .release

theorem act?_eq (s : Statement) : s.act? = custody.read? s := by
  cases s <;> rfl

theorem custody_tells : custody.Tells Act.handle := by
  constructor <;> intros <;> rfl

end Header

namespace Property

def acts (p : Property) : List Act :=
  p.textHandle?.toList.flatMap (fun text => [.hold text, .give (Variable.value p.name) text]) ++
    .hold (Variable.name p.name) :: p.classHandles.map .hold ++
    (p.listHandle?.toList.map .allocate ++ p.classHandles.map .copy ++
      p.listHandle?.toList.map (.hand (Variable.type p.name) ·)) ++
    .declare (Variable.name p.name) (Variable.value p.name) ::
    (Variable.name p.name :: p.classHandles).map .release

/-- What the property asks of the acts of a whole routine. The strings with its name and with the
names of its classes are released, after the declaration of the property and after all copies. -/
structure Settled (p : Property) (acts : List Act) : Prop where
  text : ∀ text ∈ p.textHandle?,
    acts.filter (·.settles text) = [.give (Variable.value p.name) text]
  list : ∀ list ∈ p.listHandle?,
    acts.filter (·.settles list) = [.hand (Variable.type p.name) list]
  held : ∀ handle ∈ Variable.name p.name :: p.classHandles,
    acts.filter (·.settles handle) = [.release handle] ∧
      ∃ before after, acts = before ++ .release handle :: after ∧
        .declare (Variable.name p.name) (Variable.value p.name) ∈ before ∧
        .declare (Variable.name p.name) (Variable.value p.name) ∉ after ∧
        .copy handle ∉ after

def stringHandles (p : Property) : List String :=
  p.textHandle?.toList ++ Variable.name p.name :: p.classHandles

theorem strings_acts (p : Property) : p.acts.filterMap Act.string? = p.stringHandles := by
  unfold acts stringHandles
  cases p.textHandle? <;> cases p.listHandle? <;>
    simp [List.filterMap_map, List.filterMap_cons, Act.string?, Function.comp_def]

theorem lists_acts (p : Property) : p.acts.filterMap Act.list? = p.listHandle?.toList := by
  unfold acts
  cases p.textHandle? <;> cases p.listHandle? <;>
    simp [List.filterMap_map, List.filterMap_cons, Act.list?, Function.comp_def]

theorem filter_settles_acts (p : Property) (handle : String) :
    p.acts.filter (·.settles handle) =
      List.replicate (p.textHandle?.toList.count handle) (.give (Variable.value p.name) handle) ++
        List.replicate (p.listHandle?.toList.count handle) (.hand (Variable.type p.name) handle) ++
        List.replicate ((Variable.name p.name :: p.classHandles).count handle)
          (.release handle) := by
  have hgive : (p.textHandle?.toList.flatMap fun text =>
      [Act.hold text, Act.give (Variable.value p.name) text]).filter (·.settles handle) =
        (p.textHandle?.toList.filter (· = handle)).map (Act.give (Variable.value p.name)) := by
    cases p.textHandle? with
    | none => rfl
    | some text => by_cases h : text = handle <;> simp [Act.settles, h]
  have hrelease : ((Variable.name p.name :: p.classHandles).map Act.release).filter
      (·.settles handle) =
        ((Variable.name p.name :: p.classHandles).filter (· = handle)).map Act.release :=
    List.filter_map
  unfold acts
  rw [List.filter_append, List.filter_append, List.filter_append, hgive,
    List.filter_cons_of_neg (a := Act.declare _ _) Bool.false_ne_true, hrelease, List.filter_eq,
    List.filter_eq, List.map_replicate, List.map_replicate]
  simp [List.filter_map, Function.comp_def, Act.settles, List.filter_eq]

theorem handle_mem_handles_of_mem_acts {p : Property} {act : Act} (h : act ∈ p.acts) :
    act.handle ∈ p.handles :=
  custody_tells.mem_handles (show act ∈ custody.ofProperty p from h)

theorem settled_acts {p : Property} (nodup : p.handles.Nodup) : p.Settled p.acts := by
  obtain ⟨hfirst, hlist, hlists⟩ := List.nodup_append.mp nodup
  obtain ⟨htext, hheld, htexts⟩ := List.nodup_append.mp hfirst
  refine ⟨fun text ht => ?_, fun list hl => ?_, fun handle hh => ⟨?_, ?_⟩⟩
  · have hmem : text ∈ p.textHandle?.toList := Option.mem_toList.mpr ht
    rw [filter_settles_acts, List.count_eq_one_of_mem htext hmem,
      List.count_eq_zero_of_not_mem fun h => hlists _ (List.mem_append_left _ hmem) _ h rfl,
      List.count_eq_zero_of_not_mem fun h => htexts _ hmem _ h rfl]
    rfl
  · have hmem : list ∈ p.listHandle?.toList := Option.mem_toList.mpr hl
    rw [filter_settles_acts, List.count_eq_one_of_mem hlist hmem,
      List.count_eq_zero_of_not_mem fun h => hlists _ (List.mem_append_left _ h) _ hmem rfl,
      List.count_eq_zero_of_not_mem fun h => hlists _ (List.mem_append_right _ h) _ hmem rfl]
    rfl
  · rw [filter_settles_acts, List.count_eq_one_of_mem hheld hh,
      List.count_eq_zero_of_not_mem fun h => htexts _ h _ hh rfl,
      List.count_eq_zero_of_not_mem fun h => hlists _ (List.mem_append_right _ hh) _ h rfl]
    rfl
  · obtain ⟨earlier, later, hsplit⟩ := List.append_of_mem hh
    obtain ⟨front, hacts⟩ : ∃ front, p.acts =
        front ++ .declare (Variable.name p.name) (Variable.value p.name) ::
          (Variable.name p.name :: p.classHandles).map .release := ⟨_, rfl⟩
    refine ⟨front ++ .declare (Variable.name p.name) (Variable.value p.name) ::
      earlier.map .release, later.map .release, ?_, by simp, by simp, by simp⟩
    rw [hacts, hsplit, List.map_append, List.map_cons, List.append_assoc, List.cons_append]

namespace Settled

variable {p : Property} {acts : List Act}

theorem filter_settles_eq_nil {others : List Act} {handle : String}
    (h : ∀ act ∈ others, act.handle ≠ handle) : others.filter (·.settles handle) = [] := by
  rw [List.filter_eq_nil_iff]
  intro act hact hsettles
  apply h act hact
  cases act <;> simp_all [Act.settles, Act.handle]

theorem frame (h : p.Settled acts) {first last : List Act}
    (hfirst : ∀ act ∈ first, act.handle ∉ p.handles)
    (hlast : ∀ act ∈ last, act.handle ∉ p.handles) : p.Settled (first ++ acts ++ last) := by
  have hfilter : ∀ handle ∈ p.handles, (first ++ acts ++ last).filter (·.settles handle) =
      acts.filter (·.settles handle) := by
    intro handle hmem
    rw [List.filter_append, List.filter_append,
      filter_settles_eq_nil fun act hact heq => hfirst act hact (heq ▸ hmem),
      filter_settles_eq_nil fun act hact heq => hlast act hact (heq ▸ hmem), List.nil_append,
      List.append_nil]
  have hheld : ∀ handle ∈ Variable.name p.name :: p.classHandles, handle ∈ p.handles :=
    fun handle hmem => List.mem_append_left _ (List.mem_append_right _ hmem)
  refine ⟨fun text ht => ?_, fun list hl => ?_, fun handle hh => ⟨?_, ?_⟩⟩
  · rw [hfilter text (List.mem_append_left _ (List.mem_append_left _ (Option.mem_toList.mpr ht)))]
    exact h.text text ht
  · rw [hfilter list (List.mem_append_right _ (Option.mem_toList.mpr hl))]
    exact h.list list hl
  · rw [hfilter handle (hheld handle hh)]
    exact (h.held handle hh).1
  · obtain ⟨before, after, rfl, hdeclare, hlate, hcopy⟩ := (h.held handle hh).2
    refine ⟨first ++ before, after ++ last, by simp, List.mem_append_right _ hdeclare, ?_, ?_⟩
    · rw [List.mem_append, not_or]
      exact ⟨hlate, fun hmem => hlast _ hmem (hheld _ List.mem_cons_self)⟩
    · rw [List.mem_append, not_or]
      exact ⟨hcopy, fun hmem => hlast _ hmem (hheld handle hh)⟩

end Settled

/-- Properties without a common handle are settled by the acts of all of them. -/
theorem settled_flatMap {properties : List Property}
    (nodup : (properties.flatMap (·.handles)).Nodup) {p : Property} (hp : p ∈ properties) :
    p.Settled (properties.flatMap (·.acts)) := by
  obtain ⟨before, after, rfl⟩ := List.append_of_mem hp
  rw [List.flatMap_append, List.flatMap_cons] at nodup
  obtain ⟨-, hrest, hbefore⟩ := List.nodup_append.mp nodup
  obtain ⟨hself, -, hafter⟩ := List.nodup_append.mp hrest
  have hhandle : ∀ {others : List Property} {act : Act}, act ∈ others.flatMap (·.acts) →
      act.handle ∈ others.flatMap (·.handles) := by
    intro others act hact
    obtain ⟨r, hr, hmem⟩ := List.mem_flatMap.mp hact
    exact List.mem_flatMap.mpr ⟨r, hr, handle_mem_handles_of_mem_acts hmem⟩
  rw [List.flatMap_append, List.flatMap_cons, ← List.append_assoc]
  apply (settled_acts hself).frame
  · intro act hact hmem
    exact hbefore _ (hhandle hact) _ (List.mem_append_left _ hmem) rfl
  · intro act hact hmem
    exact hafter _ hmem _ (hhandle hact) rfl

end Property

namespace Header

theorem acts_declareProperties {interner : Interner} {properties : List Property}
    {statements : List Statement} (h : declareProperties interner properties = .ok statements) :
    statements.filterMap (·.act?) = properties.flatMap (·.acts) := by
  simp only [act?_eq]
  exact custody.filterMap_declareProperties h

def Routine.acts (r : Routine) : List Act := r.lines.filterMap fun l => act? l.text

theorem Routine.acts_eq (r : Routine) : r.acts = r.body.filterMap fun s => act? s.text :=
  r.filterMap_lines
    (fun front => act?_eq_none rfl (by decide) (by decide) (by decide) front) rfl rfl

theorem acts_ofClass {interner : Interner} {c : Class} {r : Routine}
    (hnames : ∀ p ∈ c.properties, IsWord p.name)
    (hclasses : ∀ p ∈ c.properties, ∀ q ∈ p.classes, q.IsValid)
    (h : Routine.ofClass interner c = .ok r) : r.acts = c.properties.flatMap (·.acts) := by
  obtain ⟨statements, hs, -, rfl⟩ := ofClass_eq_ok h
  have hregister : (registerClass c).filterMap (fun s => act? s.text) = [] :=
    List.filterMap_eq_nil_iff.mpr fun s hmem => act?_of_mem_registerClass hmem
  have hdeclare : statements.filterMap (fun s => act? s.text) = statements.filterMap (·.act?) := by
    apply List.filterMap_congr
    intro s hmem
    obtain ⟨p, hp, hfor⟩ := isFor_declareProperties hs s hmem
    exact hfor.act? (hnames p hp) (hclasses p hp)
  rw [Routine.acts_eq, List.filterMap_append, List.filterMap_append, hregister, hdeclare,
    acts_declareProperties hs]
  exact List.append_nil _

theorem acts_renderAll_flatMap (ls : List Text.Line) :
    Reading.acts (Text.Line.renderAll ls) = ls.flatMap fun l => Reading.acts l.written := by
  unfold Reading.acts
  rw [Text.Line.lines_renderAll, List.map_append, List.filterMap_append, List.map_flatMap,
    List.filterMap_flatMap]
  exact List.append_nil _

theorem acts_renderAll {r : Routine} (h : ∀ l ∈ r.lines, Text.Stands l.text) :
    Reading.acts (Text.Line.renderAll r.lines) = r.acts := by
  unfold Reading.acts Routine.acts
  rw [Text.flush_lines_renderAll h, List.filterMap_append, List.filterMap_map]
  exact List.append_nil _

/-- A class has a routine exactly if the handles of its properties are distinct. If the name of the
class breaks no line, all strings and lists that the text of the routine makes are then handles of
properties, and each property is settled by what the text does. -/
theorem ofClass_settles {interner : Interner} {c : Class}
    (hnames : ∀ p ∈ c.properties, Identifier.isValid p.name = true)
    (hreferences : ∀ q ∈ c.references, q.IsValid)
    (hdefaults : ∀ p ∈ c.properties, ∀ cls name, p.default? ≠ some (.constant cls name))
    (hunions : ∀ p ∈ c.properties, ∀ u, p.type? = some (.union u) → u.isEmpty = false)
    (hinterned : ∀ p ∈ c.properties, ∀ q ∈ p.classes, q.display ∈ interner.strings) :
    ((∃ r, Routine.ofClass interner c = .ok r) ↔ c.handles.Nodup) ∧
      ∀ r, Routine.ofClass interner c = .ok r → Text.Unbroken (Identifier.ofName c.name) →
        (Reading.acts (Text.Line.renderAll r.lines)).filterMap Act.string? =
            c.properties.flatMap (·.stringHandles) ∧
          (Reading.acts (Text.Line.renderAll r.lines)).filterMap Act.list? =
            c.properties.flatMap (·.listHandle?.toList) ∧
          ∀ p ∈ c.properties, p.Settled (Reading.acts (Text.Line.renderAll r.lines)) := by
  have hexpressible : ∀ p ∈ c.properties, p.Expressible interner := fun p hp =>
    ⟨hdefaults p hp, fun q hq => Option.isSome_iff_exists.mp
      ((interner.isSome_get?_iff _).mpr (hinterned p hp q hq)), hunions p hp⟩
  have hok : (∃ r, Routine.ofClass interner c = .ok r) ↔ c.handles.Nodup := by
    rcases ofClass_cases hexpressible with ⟨hnodup, hok⟩ | ⟨hnodup, _, herror⟩
    · exact iff_of_true hok hnodup
    · refine iff_of_false ?_ hnodup
      rintro ⟨r, hr⟩
      rw [herror] at hr
      contradiction
  refine ⟨hok, fun r hr hname => ?_⟩
  have hclasses : ∀ p ∈ c.properties, ∀ q ∈ p.classes, q.IsValid := fun p hp q hq =>
    hreferences q (List.mem_append_right _ (List.mem_flatMap.mpr ⟨p, hp, hq⟩))
  have hacts : Reading.acts (Text.Line.renderAll r.lines) = c.properties.flatMap (·.acts) :=
    (acts_renderAll (stands_ofClass hname hnames hreferences hr)).trans
      (acts_ofClass (fun p hp => isWord_of_isValid (hnames p hp)) hclasses hr)
  rw [hacts]
  refine ⟨?_, ?_, ?_⟩
  · rw [List.filterMap_flatMap]
    simp only [Property.strings_acts]
  · rw [List.filterMap_flatMap]
    simp only [Property.lists_acts]
  · exact fun p hp => Property.settled_flatMap (hok.mp ⟨r, hr⟩) hp

def shelf : Class where
  name := ⟨["Library"], "Shelf"⟩
  parent? := some ⟨["Library"], "Furniture"⟩
  properties := [{ name := "label", default? := some (.string "new\n") },
    { name := "keeper", type? := some (.cls ⟨["Library"], "Person"⟩) },
    { name := "items"
      type? := some (.union { classes := [⟨["Library"], "Book"⟩, ⟨[], "Map"⟩] }) }]

theorem ofClass_settles_shelf :
    ∃ r, Routine.ofClass (.ofList (shelf.references.map (·.display))) shelf = .ok r ∧
      ∀ p ∈ shelf.properties, p.Settled (Reading.acts (Text.Line.renderAll r.lines)) := by
  have hinterned : ∀ p ∈ shelf.properties, ∀ q ∈ p.classes,
      q.display ∈ (Interner.ofList (shelf.references.map (·.display))).strings := by
    decide +kernel
  obtain ⟨hok, hsettles⟩ := ofClass_settles (by decide) (by decide) (by simp [shelf])
    (by simp [shelf]; decide) hinterned
  obtain ⟨r, hr⟩ := hok.mpr (by decide +kernel)
  obtain ⟨-, -, hproperties⟩ := hsettles r hr (by decide)
  exact ⟨r, hr, hproperties⟩

/-- The name of the class holds a line that releases a string of the routine. -/
def torn : Class where
  name := ⟨[], "A\n\tzend_string_release(property_p_name);\n"⟩
  properties := [{ name := "p" }]

theorem releases_torn {r : Routine} (h : Routine.ofClass (.ofList []) torn = .ok r) :
    [.release "property_p_name", .release "property_p_name"].Sublist
      (Reading.acts (Text.Line.renderAll r.lines)) := by
  obtain ⟨statements, hs, -, rfl⟩ := ofClass_eq_ok h
  have hrelease : Statement.releaseString (Variable.name "p") ∈ statements := by
    obtain ⟨blocks, hblocks, rfl⟩ := declareProperties_eq_ok_iff.mp hs
    obtain ⟨block, hmem, hblock⟩ := Sequence.exists_right_of_forall₂ hblocks List.mem_cons_self
    obtain ⟨value, make, text, -, -, rfl⟩ := declareProperty_cases hblock
    exact List.mem_flatten.mpr ⟨_, hmem, by simp⟩
  have hfirst : [.release "property_p_name"].Sublist (Reading.acts (Text.Line.written
      ⟨0, "static zend_class_entry *" ++ Identifier.registration torn.name ++ "(" ++ "void" ++
        ")"⟩)) := by
    decide +kernel
  have hlater : .release "property_p_name" ∈
      Reading.acts (Statement.releaseString (Variable.name "p")).line.written := by
    decide +kernel
  rw [Routine.lines_eq, acts_renderAll_flatMap, List.cons_append, List.flatMap_cons]
  have hbody : Statement.releaseString (Variable.name "p") ∈
      registerClass torn ++ statements ++ [.returnEntry] :=
    List.mem_append_left _ (List.mem_append_right _ hrelease)
  refine List.Sublist.append hfirst (List.singleton_sublist.mpr (List.mem_flatMap.mpr ?_))
  exact ⟨_, List.mem_append_left _ (List.mem_cons_of_mem _ (List.mem_map_of_mem hbody)), hlater⟩

theorem not_settled_torn :
    (∀ p ∈ torn.properties, Identifier.isValid p.name = true) ∧
    (∀ q ∈ torn.references, q.IsValid) ∧
    (∀ p ∈ torn.properties, ∀ cls name, p.default? ≠ some (.constant cls name)) ∧
    (∀ p ∈ torn.properties, ∀ u, p.type? = some (.union u) → u.isEmpty = false) ∧
    (∀ p ∈ torn.properties, ∀ q ∈ p.classes, q.display ∈ (Interner.ofList []).strings) ∧
    torn.handles.Nodup ∧
    ∃ r, Routine.ofClass (.ofList []) torn = .ok r ∧
      [.release "property_p_name", .release "property_p_name"].Sublist
        (Reading.acts (Text.Line.renderAll r.lines)) ∧
      ¬ ∀ p ∈ torn.properties, p.Settled (Reading.acts (Text.Line.renderAll r.lines)) := by
  have hdefaults : ∀ p ∈ torn.properties, ∀ cls name, p.default? ≠ some (.constant cls name) := by
    simp [torn]
  have hunions : ∀ p ∈ torn.properties, ∀ u, p.type? = some (.union u) → u.isEmpty = false := by
    simp [torn]
  have hclasses : ∀ p ∈ torn.properties, p.classes = [] := by decide
  have hnodup : torn.handles.Nodup := by decide +kernel
  have hexpressible : ∀ p ∈ torn.properties, p.Expressible (.ofList []) := fun p hp =>
    ⟨hdefaults p hp, by simp [hclasses p hp], hunions p hp⟩
  obtain ⟨-, r, hr⟩ | ⟨hclash, -⟩ := ofClass_cases hexpressible
  · refine ⟨by decide, by decide, hdefaults, hunions, by simp +contextual [hclasses], hnodup, r, hr,
      releases_torn hr, ?_⟩
    intro hsettled
    have hheld := ((hsettled _ List.mem_cons_self).held _ List.mem_cons_self).1
    have hname : Variable.name "p" = "property_p_name" := by decide
    have hlength := ((releases_torn hr).filter (·.settles "property_p_name")).length_le
    rw [hname] at hheld
    rw [hheld] at hlength
    exact absurd hlength (by decide)
  · exact absurd hnodup hclash

end Header

end ExtensionHeader
