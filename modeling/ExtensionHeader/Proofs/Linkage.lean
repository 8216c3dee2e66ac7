import ExtensionHeader.Proofs.Reading.Outline

/-! How the sections of a header refer to each other. Names that rows of tables and class entries
use are defined earlier in the text, each of them once, and no handler is declared without a row. -/
namespace ExtensionHeader

open Header Reading

namespace Reading

/-- One of the marks before a place is of the kind, and none behind it is. -/
def OnceBefore (p : Mark → Bool) (before after : List Mark) : Prop :=
  before.countP p = 1 ∧ after.countP p = 0

namespace Mark

def defines (argInfo : String) : Mark → Bool
  | block name | synonym name _ => name = argInfo
  | _ => false

/-- What a mark asks of the marks before and behind it. -/
def Linked (before after : List Mark) : Mark → Prop
  | block _ | table _ => True
  | synonym _ target => block target ∈ before
  | forward handler => ∃ argInfo, row argInfo handler false ∈ after
  | row argInfo handler isAbstract =>
    OnceBefore (·.defines argInfo) before after ∧
      if isAbstract then forward handler ∉ before ++ after
      else OnceBefore (· = forward handler) before after
  | entry name => OnceBefore (· = table name) before after

def stage : Mark → Nat
  | block _ | synonym .. => 0
  | forward _ => 1
  | table _ | row .. => 2
  | entry _ => 3

end Mark

def LinkClosed (ms : List Mark) : Prop :=
  ∀ before m after, ms = before ++ m :: after → m.Linked before after

def LinkedBetween (first ms last : List Mark) : Prop :=
  ∀ before m after, ms = before ++ m :: after → m.Linked (first ++ before) (after ++ last)

section linked

variable {first ms more last : List Mark} {p : Mark → Bool}

theorem LinkedBetween.append (h : LinkedBetween first ms (more ++ last))
    (h' : LinkedBetween (first ++ ms) more last) : LinkedBetween first (ms ++ more) last := by
  intro before m after heq
  rcases List.append_eq_append_iff.mp heq with ⟨middle, rfl, hmore⟩ | ⟨middle, hms, hafter⟩
  · have hlinked := h' middle m after hmore
    rwa [List.append_assoc] at hlinked
  · cases middle with
    | nil =>
      have hlinked := h' [] m after hafter.symm
      rw [List.append_nil] at hms hlinked
      rwa [← hms]
    | cons next middle =>
      obtain ⟨rfl, rfl⟩ := List.cons.inj hafter
      have hlinked := h before m middle hms
      rwa [← List.append_assoc] at hlinked

theorem linkClosed_iff : LinkClosed ms ↔ LinkedBetween [] ms [] := by
  unfold LinkClosed LinkedBetween
  simp only [List.nil_append, List.append_nil]

theorem onceBefore_of_segment {before after : List Mark} {m : Mark} (hfirst : first.countP p = 1)
    (hms : (before ++ m :: after).countP p = 0) (hlast : last.countP p = 0) :
    OnceBefore p (first ++ before) (after ++ last) := by
  rw [List.countP_append, List.countP_cons] at hms
  constructor
  · rw [List.countP_append]
    omega
  · rw [List.countP_append]
    omega

theorem countP_eq_zero_of_stage {kind stage : Nat} (hp : ∀ m, p m = true → m.stage = kind)
    (hms : ∀ m ∈ ms, m.stage = stage) (hne : stage ≠ kind) : ms.countP p = 0 := by
  rw [List.countP_eq_zero]
  intro m hm hpm
  exact hne ((hms m hm).symm.trans (hp m hpm))

theorem stage_of_defines {argInfo : String} (m : Mark) (h : m.defines argInfo = true) :
    m.stage = 0 := by
  cases m <;> first | rfl | contradiction

theorem stage_of_forward {handler : Handler} (m : Mark) (h : decide (m = .forward handler) = true) :
    m.stage = 1 := by
  rw [of_decide_eq_true h]
  rfl

theorem stage_of_table {name : String} (m : Mark) (h : decide (m = .table name) = true) :
    m.stage = 2 := by
  rw [of_decide_eq_true h]
  rfl

end linked

end Reading

namespace Header

/-! The stages of the outline, and how often a definition or declaration stands in its own. -/

theorem stage_argInfos (shares : Bool) (e : Extension) :
    ∀ m ∈ (argInfos shares e).map (·.mark), m.stage = 0 := by
  rw [List.forall_mem_map]
  intro item _
  cases item <;> rfl

theorem stage_handlers (e : Extension) :
    ∀ m ∈ (handlers e).map Mark.forward, m.stage = 1 :=
  List.forall_mem_map.mpr fun _ _ => rfl

theorem stage_tables (e : Extension) :
    ∀ m ∈ (entryTables e).flatMap (·.marks), m.stage = 2 := by
  rw [List.forall_mem_flatMap]
  intro t _
  refine List.forall_mem_cons.mpr ⟨rfl, List.forall_mem_map.mpr fun entry _ => ?_⟩
  cases entry <;> rfl

theorem stage_entries (e : Extension) :
    ∀ m ∈ e.classes.map (fun c => Mark.entry (Identifier.methodTable c.name)), m.stage = 3 :=
  List.forall_mem_map.mpr fun _ _ => rfl

theorem countP_argInfos (argInfo : String) (items : List ArgInfo) :
    (items.map (·.mark)).countP (·.defines argInfo) = (items.map (·.name)).count argInfo := by
  unfold List.count
  rw [List.countP_map, List.countP_map]
  congr 1
  funext item
  cases item <;> rfl

theorem countP_handlers (handler : Handler) (hs : List Handler) :
    (hs.map Mark.forward).countP (· = .forward handler) = hs.count handler := by
  unfold List.count
  rw [List.countP_map]
  congr 1
  funext other
  rw [Bool.eq_iff_iff]
  simp

theorem countP_tables (name : String) (ts : List EntryTable) :
    (ts.flatMap (·.marks)).countP (· = .table name) = (ts.map (·.name)).count name := by
  induction ts with
  | nil => rfl
  | cons t rest ih =>
    have hrows : (t.entries.map (·.mark)).countP (· = .table name) = 0 := by
      rw [List.countP_eq_zero]
      intro m hm
      obtain ⟨entry, -, rfl⟩ := List.mem_map.mp hm
      cases entry <;> simp [Entry.mark]
    rw [List.flatMap_cons, List.countP_append, ih, List.map_cons, List.count_cons]
    unfold EntryTable.marks
    rw [List.countP_cons, hrows]
    simp [Nat.add_comm]

def ArgInfo.Owners.Written (owners : ArgInfo.Owners) (written : List ArgInfo) : Prop :=
  ∀ digest, ∀ owner ∈ owners.bucket digest, .block owner.1 owner.2 ∈ written

theorem ArgInfo.Owners.written_nil : Written {} [] :=
  fun _ _ howner => absurd howner List.not_mem_nil

theorem ArgInfo.Owners.Written.add {owners : ArgInfo.Owners} {written : List ArgInfo}
    (h : owners.Written written) (d : String × Signature) :
    (owners.add d).Written (written ++ [.block d.1 d.2]) := by
  intro digest owner howner
  rw [bucket_add] at howner
  split at howner
  · rcases List.mem_append.mp howner with howner | howner
    · exact List.mem_append_left _ (h digest owner howner)
    · rw [List.mem_singleton.mp howner]
      exact List.mem_append_right _ List.mem_cons_self
  · exact List.mem_append_left _ (h digest owner howner)

theorem exists_block_of_share {owners : ArgInfo.Owners} {written : List ArgInfo}
    (howners : owners.Written written) {ds : List (String × Signature)}
    {before after : List ArgInfo} {name target : String}
    (h : ArgInfo.share owners ds = before ++ .synonym name target :: after) :
    ∃ s, .block target s ∈ written ++ before := by
  induction ds generalizing owners written before with
  | nil => simp [ArgInfo.share] at h
  | cons d rest ih =>
    unfold ArgInfo.share at h
    cases hfind : owners.find? d.2 with
    | some owner =>
      simp only [hfind] at h
      cases before with
      | nil =>
        obtain ⟨heq, -⟩ := List.cons.inj h
        cases heq
        have howner := howners _ owner (List.mem_of_find?_eq_some hfind)
        exact ⟨owner.2, List.mem_append_left _ howner⟩
      | cons item before =>
        obtain ⟨-, hrest⟩ := List.cons.inj h
        obtain ⟨s, hs⟩ := ih howners hrest
        exact ⟨s, by grind⟩
    | none =>
      simp only [hfind] at h
      cases before with
      | nil => exact absurd (List.cons.inj h).1 (by simp)
      | cons item before =>
        obtain ⟨rfl, hrest⟩ := List.cons.inj h
        obtain ⟨s, hs⟩ := ih (howners.add d) hrest
        rw [List.append_assoc] at hs
        exact ⟨s, hs⟩

theorem exists_block_of_synonym {shares : Bool} {e : Extension} {before after : List ArgInfo}
    {name target : String} (h : argInfos shares e = before ++ .synonym name target :: after) :
    ∃ s, .block target s ∈ before := by
  cases shares with
  | true => exact exists_block_of_share ArgInfo.Owners.written_nil h
  | false =>
    have hmem : .synonym name target ∈ argInfos false e := h ▸ by simp
    obtain ⟨d, -, heq⟩ := List.mem_map.mp hmem
    contradiction

theorem mark_ofFunction (f : Function) : (Entry.ofFunction f).mark =
    .row (Identifier.functionArgInfo f.name) (.function (Identifier.ofName f.name)) false := by
  unfold Entry.ofFunction
  split
  · rename_i hglobal
    have hpath : f.name.path = [] := List.isEmpty_iff.mp hglobal
    have hname : Identifier.ofName f.name = f.name.name := by
      unfold Identifier.ofName
      rw [hpath, List.map_nil, String.join_nil, String.empty_append]
    rw [hname]
    rfl
  · rfl

theorem mark_ofMethod (c : Class) (m : Method) : (Entry.ofMethod c m).mark =
    .row (Identifier.methodArgInfo c.name m.name) (.method (Identifier.ofName c.name) m.name)
      m.isAbstract := by
  unfold Entry.ofMethod
  cases m.isAbstract <;> rfl

theorem mem_tables_of_entry {e : Extension} {t : EntryTable} (ht : t ∈ entryTables e)
    {entry : Entry} (h : entry ∈ t.entries) : entry.mark ∈ (entryTables e).flatMap (·.marks) :=
  List.mem_flatMap.mpr ⟨t, ht, List.mem_cons_of_mem _ (List.mem_map_of_mem h)⟩

theorem row_mem_tables {e : Extension} {argInfo : String} {handler : Handler} {isAbstract : Bool}
    (h : .row argInfo handler isAbstract ∈ (entryTables e).flatMap (·.marks)) :
    (∃ f ∈ e.functions, argInfo = Identifier.functionArgInfo f.name ∧
        handler = .function (Identifier.ofName f.name) ∧ isAbstract = false) ∨
      ∃ c ∈ e.classes, ∃ m ∈ c.methods, argInfo = Identifier.methodArgInfo c.name m.name ∧
        handler = .method (Identifier.ofName c.name) m.name ∧ isAbstract = m.isAbstract := by
  obtain ⟨t, ht, hrow⟩ := List.mem_flatMap.mp h
  rcases List.mem_cons.mp hrow with hrow | hrow
  · contradiction
  · obtain ⟨entry, hentry, hmark⟩ := List.mem_map.mp hrow
    rcases exists_of_mem_entries ht hentry with ⟨f, hf, rfl⟩ | ⟨c, hc, m, hm, rfl⟩
    · rw [mark_ofFunction] at hmark
      cases hmark
      exact .inl ⟨f, hf, rfl, rfl, rfl⟩
    · rw [mark_ofMethod] at hmark
      cases hmark
      exact .inr ⟨c, hc, m, hm, rfl, rfl, rfl⟩

theorem argInfo_mem_of_row {e : Extension} {argInfo : String} {handler : Handler}
    {isAbstract : Bool}
    (h : .row argInfo handler isAbstract ∈ (entryTables e).flatMap (·.marks)) :
    argInfo ∈ (declarations e).map (·.1) := by
  unfold declarations
  rw [List.map_append, List.mem_append, List.map_map, List.map_flatMap]
  rcases row_mem_tables h with ⟨f, hf, rfl, -⟩ | ⟨c, hc, m, hm, rfl, -⟩
  · exact .inl (List.mem_map_of_mem hf)
  · right
    rw [List.mem_flatMap]
    refine ⟨c, hc, ?_⟩
    rw [List.map_map]
    exact List.mem_map_of_mem hm

theorem exists_table_of_function {e : Extension} {f : Function} (hf : f ∈ e.functions) :
    ∃ t ∈ entryTables e, .ofFunction f ∈ t.entries := by
  have hpath : f.name.path ∈ e.path :: e.functionNamespaces.filter (· ≠ e.path) := by
    by_cases hown : f.name.path = e.path
    · rw [hown]
      exact List.mem_cons_self
    · apply List.mem_cons_of_mem
      refine List.mem_filter.mpr ⟨?_, decide_eq_true hown⟩
      exact List.mem_eraseDups.mpr (List.mem_map_of_mem hf)
  refine ⟨EntryTable.ofNamespace e f.name.path, List.mem_append_left _ (List.mem_map_of_mem hpath),
    List.mem_map_of_mem (List.mem_filter.mpr ⟨hf, decide_eq_true rfl⟩)⟩

theorem exists_row_of_handler {e : Extension} {handler : Handler} (h : handler ∈ handlers e) :
    ∃ argInfo, .row argInfo handler false ∈ (entryTables e).flatMap (·.marks) := by
  rcases List.mem_append.mp h with h | h
  · obtain ⟨f, hf, rfl⟩ := List.mem_map.mp h
    obtain ⟨t, ht, hentry⟩ := exists_table_of_function hf
    have hrow := mem_tables_of_entry ht hentry
    rw [mark_ofFunction] at hrow
    exact ⟨_, hrow⟩
  · obtain ⟨c, hc, h⟩ := List.mem_flatMap.mp h
    obtain ⟨m, hm, rfl⟩ := List.mem_map.mp h
    obtain ⟨hm, habstract⟩ := List.mem_filter.mp hm
    have hconcrete : m.isAbstract = false := by simpa using habstract
    have hrow := mem_tables_of_entry (List.mem_append_right _ (List.mem_map_of_mem hc))
      (List.mem_map_of_mem (f := Entry.ofMethod c) hm)
    rw [mark_ofMethod, hconcrete] at hrow
    exact ⟨_, hrow⟩

theorem handler_mem_of_row {e : Extension} {argInfo : String} {handler : Handler}
    (h : .row argInfo handler false ∈ (entryTables e).flatMap (·.marks)) :
    handler ∈ handlers e := by
  rcases row_mem_tables h with ⟨f, hf, -, rfl, -⟩ | ⟨c, hc, m, hm, -, rfl, hconcrete⟩
  · exact List.mem_append_left _ (List.mem_map_of_mem hf)
  · apply List.mem_append_right
    refine List.mem_flatMap.mpr ⟨c, hc, List.mem_map_of_mem (List.mem_filter.mpr ⟨hm, ?_⟩)⟩
    rw [← hconcrete]
    rfl

section nodup

variable {e : Extension} (h : e.Accepted) (hcollisions : Validation.collisions e = [])

include h hcollisions

theorem nodup_kinds : ((kinds e).flatMap (·.2)).Nodup := by
  have htags : ["arg", "zif", "zim", "ext", "cla", "reg"].Nodup := by decide
  exact nodup_of_kinds htags (take_of_mem_kinds e) (nodup_of_mem_kinds h hcollisions)

theorem nodup_argInfos (shares : Bool) : ((argInfos shares e).map (·.name)).Nodup := by
  rw [name_argInfos, name_declarations]
  exact h.nodup_argInfoNames hcollisions

theorem nodup_slice (start count : Nat) :
    ((((kinds e).drop start).take count).flatMap (·.2)).Nodup := by
  refine (nodup_kinds h hcollisions).sublist (List.Sublist.flatMap ?_ _)
  exact (List.take_sublist count _).trans (List.drop_sublist start _)

theorem nodup_handlers : (handlers e).Nodup := by
  have hsymbols : ((handlers e).map (·.symbol)).Nodup := by
    have htwo : (_ ++ (_ ++ [])).Nodup := nodup_slice h hcollisions 1 2
    rwa [List.append_nil, ← symbol_handlers] at htwo
  exact hsymbols.of_map

theorem nodup_entryTables : ((entryTables e).map (·.name)).Nodup := by
  have htwo : (_ ++ (_ ++ [])).Nodup := nodup_slice h hcollisions 3 2
  rw [List.append_nil] at htwo
  unfold entryTables
  rw [List.map_append, List.map_map]
  exact htwo

theorem handler_not_mem_of_row {argInfo : String} {handler : Handler}
    (hrow : .row argInfo handler true ∈ (entryTables e).flatMap (·.marks)) :
    handler ∉ handlers e := by
  rcases row_mem_tables hrow with ⟨f, -, -, -, hconcrete⟩ | ⟨c, hc, m, hm, -, rfl, habstract⟩
  · contradiction
  · intro hmem
    rcases List.mem_append.mp hmem with hmem | hmem
    · obtain ⟨f, -, heq⟩ := List.mem_map.mp hmem
      contradiction
    · obtain ⟨d, hd, hmem⟩ := List.mem_flatMap.mp hmem
      obtain ⟨n, hn, heq⟩ := List.mem_map.mp hmem
      obtain ⟨hn, hconcrete⟩ := List.mem_filter.mp hn
      injection heq with hcls hname
      obtain rfl := List.inj_on_of_nodup_map (h.nodup_classNames hcollisions) hd hc hcls
      have hlower : n.name.toLower = m.name.toLower := congrArg String.toLower hname
      obtain rfl := List.inj_on_of_nodup_map (h.cls d hd).methods hn hm hlower
      rw [← habstract] at hconcrete
      contradiction

end nodup

/-! The parts of the outline, each between those before and behind it. -/
section parts

variable {e : Extension} {first last : List Mark}

theorem linked_argInfos (shares : Bool) :
    LinkedBetween [] ((argInfos shares e).map (·.mark)) last := by
  intro before m after heq
  obtain ⟨earlier, rest, hitems, rfl, hrest⟩ := List.map_eq_append_iff.mp heq
  obtain ⟨item, later, rfl, rfl, rfl⟩ := List.map_eq_cons_iff.mp hrest
  cases item with
  | block name s => trivial
  | synonym name target =>
    obtain ⟨s, hs⟩ := exists_block_of_synonym hitems
    exact List.mem_map.mpr ⟨_, hs, rfl⟩

theorem linked_handlers :
    LinkedBetween first ((handlers e).map .forward)
      ((entryTables e).flatMap (·.marks) ++ last) := by
  intro before m after heq
  have hm : m ∈ (handlers e).map .forward := heq ▸ by simp
  obtain ⟨handler, hhandler, rfl⟩ := List.mem_map.mp hm
  obtain ⟨argInfo, hrow⟩ := exists_row_of_handler hhandler
  exact ⟨argInfo, List.mem_append_right _ (List.mem_append_left _ hrow)⟩

variable (h : e.Accepted) (hcollisions : Validation.collisions e = [])

include h hcollisions

theorem defined_once (shares : Bool) {before after : List Mark} {argInfo : String}
    {handler : Handler} {isAbstract : Bool}
    (heq : (entryTables e).flatMap (·.marks) = before ++ .row argInfo handler isAbstract :: after) :
    OnceBefore (·.defines argInfo)
      ((argInfos shares e).map (·.mark) ++ (handlers e).map .forward ++ before)
      (after ++ e.classes.map fun c => .entry (Identifier.methodTable c.name)) := by
  have hmem : argInfo ∈ (argInfos shares e).map (·.name) := by
    rw [name_argInfos]
    exact argInfo_mem_of_row (heq ▸ List.mem_append_right _ List.mem_cons_self)
  apply onceBefore_of_segment
  · rw [List.countP_append, countP_argInfos,
      List.count_eq_one_of_mem (nodup_argInfos h hcollisions shares) hmem,
      countP_eq_zero_of_stage stage_of_defines (stage_handlers e) (by decide)]
  · rw [← heq]
    exact countP_eq_zero_of_stage stage_of_defines (stage_tables e) (by decide)
  · exact countP_eq_zero_of_stage stage_of_defines (stage_entries e) (by decide)

theorem declared_once (shares : Bool) {before after : List Mark} {argInfo : String}
    {handler : Handler}
    (heq : (entryTables e).flatMap (·.marks) = before ++ .row argInfo handler false :: after) :
    OnceBefore (· = .forward handler)
      ((argInfos shares e).map (·.mark) ++ (handlers e).map .forward ++ before)
      (after ++ e.classes.map fun c => .entry (Identifier.methodTable c.name)) := by
  have hmem : handler ∈ handlers e :=
    handler_mem_of_row (heq ▸ List.mem_append_right _ List.mem_cons_self)
  apply onceBefore_of_segment
  · rw [List.countP_append, countP_handlers,
      List.count_eq_one_of_mem (nodup_handlers h hcollisions) hmem,
      countP_eq_zero_of_stage stage_of_forward (stage_argInfos shares e) (by decide)]
  · rw [← heq]
    exact countP_eq_zero_of_stage stage_of_forward (stage_tables e) (by decide)
  · exact countP_eq_zero_of_stage stage_of_forward (stage_entries e) (by decide)

theorem not_declared (shares : Bool) {before after : List Mark} {argInfo : String}
    {handler : Handler}
    (heq : (entryTables e).flatMap (·.marks) = before ++ .row argInfo handler true :: after) :
    .forward handler ∉ (argInfos shares e).map (·.mark) ++ (handlers e).map .forward ++ before ++
      (after ++ e.classes.map fun c => .entry (Identifier.methodTable c.name)) := by
  have hdeclared : .forward handler ∉ (handlers e).map Mark.forward := by
    intro hmem
    obtain ⟨other, hother, hforward⟩ := List.mem_map.mp hmem
    cases hforward
    have hrow : .row argInfo handler true ∈ (entryTables e).flatMap (·.marks) :=
      heq ▸ List.mem_append_right _ List.mem_cons_self
    exact handler_not_mem_of_row h hcollisions hrow hother
  have hmarks : ∀ stage, stage ≠ 1 → ∀ {ms : List Mark}, (∀ m ∈ ms, m.stage = stage) →
      .forward handler ∉ ms := fun stage hne _ hms hmem => hne (hms _ hmem).symm
  have htables : .forward handler ∉ before ++ .row argInfo handler true :: after :=
    heq ▸ hmarks 2 (by decide) (stage_tables e)
  simp only [List.mem_append, List.mem_cons, not_or] at htables ⊢
  exact ⟨⟨⟨hmarks 0 (by decide) (stage_argInfos shares e), hdeclared⟩, htables.1⟩,
    htables.2.2, hmarks 3 (by decide) (stage_entries e)⟩

theorem linked_tables (shares : Bool) :
    LinkedBetween ((argInfos shares e).map (·.mark) ++ (handlers e).map .forward)
      ((entryTables e).flatMap (·.marks))
      (e.classes.map fun c => .entry (Identifier.methodTable c.name)) := by
  intro before m after heq
  have hstage := stage_tables e m (heq ▸ List.mem_append_right _ List.mem_cons_self)
  cases m with
  | block _ | synonym _ _ | forward _ | entry _ => exact absurd hstage (by simp [Mark.stage])
  | table name => trivial
  | row argInfo handler isAbstract =>
    refine ⟨defined_once h hcollisions shares heq, ?_⟩
    cases isAbstract with
    | true => exact not_declared h hcollisions shares heq
    | false => exact declared_once h hcollisions shares heq

theorem linked_entries (shares : Bool) :
    LinkedBetween ((argInfos shares e).map (·.mark) ++ (handlers e).map .forward ++
        (entryTables e).flatMap (·.marks))
      (e.classes.map fun c => .entry (Identifier.methodTable c.name)) [] := by
  intro before m after heq
  have hm : m ∈ e.classes.map fun c => .entry (Identifier.methodTable c.name) := heq ▸ by simp
  obtain ⟨c, hc, rfl⟩ := List.mem_map.mp hm
  have hmem : Identifier.methodTable c.name ∈ (entryTables e).map (·.name) := by
    have htable : EntryTable.ofClass c ∈ entryTables e :=
      List.mem_append_right _ (List.mem_map_of_mem hc)
    exact List.mem_map_of_mem htable
  apply onceBefore_of_segment
  · rw [List.countP_append, List.countP_append,
      countP_eq_zero_of_stage stage_of_table (stage_argInfos shares e) (by decide),
      countP_eq_zero_of_stage stage_of_table (stage_handlers e) (by decide), countP_tables,
      List.count_eq_one_of_mem (nodup_entryTables h hcollisions) hmem]
  · rw [← heq]
    exact countP_eq_zero_of_stage stage_of_table (stage_entries e) (by decide)
  · rfl

end parts

end Header

/-- The marks of a header are those of its declarations, and what they name is linked. -/
theorem generate_linkClosed {config : Config} {e : Extension} {out : Generated}
    (h : generate config e = .ok out) (hreferences : ∀ r ∈ e.references, r.name.IsValid) :
    marks out.text = outline config.sharesArgInfo e ∧ LinkClosed (marks out.text) := by
  obtain ⟨herrors, -, hemit⟩ := generate_eq_ok_iff.mp h
  have accepted := Validation.accepted_of_errors herrors
  have hcollisions := (Validation.errors_eq_nil herrors).2.2
  have hmarks : marks out.text = outline config.sharesArgInfo e :=
    (Extension.legible_of_errors herrors hreferences).marks_emit hemit
  refine ⟨hmarks, ?_⟩
  rw [hmarks, linkClosed_iff]
  have htables := linked_tables accepted hcollisions config.sharesArgInfo
  rw [← List.append_nil (e.classes.map _)] at htables
  exact LinkedBetween.append
    (LinkedBetween.append (LinkedBetween.append (linked_argInfos _) linked_handlers) htables)
    (linked_entries accepted hcollisions config.sharesArgInfo)

def switchboard : Extension where
  path := ["Tel"]
  functions := [{ name := ⟨["Tel"], "dial"⟩, signature := { parameters := [{ name := "number" }] } },
    { name := ⟨[], "redial"⟩, signature := { parameters := [{ name := "number" }] } }]
  classes := [{
    name := ⟨["Tel"], "Line"⟩
    methods := [{ name := "open", isAbstract := true },
      { name := "owner", signature := { returns? := some (.cls ⟨["Tel"], "Person"⟩) } }]
    isAbstract := true }]

theorem generate_linkClosed_switchboard :
    ∃ out, generate {} switchboard = .ok out ∧ LinkClosed (marks out.text) ∧
      .synonym "arginfo_redial" "arginfo_Tel_dial" ∈ marks out.text ∧
      .row "arginfo_class_Tel_Line_open" (.method "Tel_Line" "open") true ∈ marks out.text := by
  obtain ⟨out, hout⟩ : ∃ out, generate {} switchboard = .ok out :=
    exists_generate_eq_ok (by decide +kernel) (by decide +kernel)
  obtain ⟨hmarks, hlinked⟩ := generate_linkClosed hout (by decide +kernel)
  refine ⟨out, hout, hlinked, ?_⟩
  rw [hmarks]
  decide +kernel

end ExtensionHeader
