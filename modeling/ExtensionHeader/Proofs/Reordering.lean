import ExtensionHeader.Proofs.Consistency
import ExtensionHeader.Proofs.Handles
import ExtensionHeader.Proofs.Modes
import ExtensionHeader.Proofs.Reading.Lines
import ExtensionHeader.Proofs.Sharing
import Mathlib.Data.List.Perm.Basic

/-! The order of declarations decides only the order of what is written. Whether an extension is
accepted is a matter of which declarations it has; each declaration has its lines in the header,
whatever stands around it, and only sharing makes some of them depend on the declarations before. -/
namespace ExtensionHeader

open Header Validation Hierarchy

/-- The second extension has the declarations of the first, functions and classes in any order. -/
structure Extension.Reorders (e e' : Extension) : Prop where
  path : e'.path = e.path
  functions : e'.functions.Perm e.functions
  classes : e'.classes.Perm e.classes

namespace Extension.Reorders

variable {e e' : Extension} (h : e.Reorders e')

include h

theorem symm : e'.Reorders e := ⟨h.path.symm, h.functions.symm, h.classes.symm⟩

theorem functionNamespaces : e'.functionNamespaces.Perm e.functionNamespaces := by
  unfold Extension.functionNamespaces
  rw [List.perm_ext_iff_of_nodup (Sequence.nodup_eraseDups _) (Sequence.nodup_eraseDups _)]
  intro path
  rw [List.mem_eraseDups, List.mem_eraseDups, (h.functions.map _).mem_iff]

theorem references : e'.references.Perm e.references :=
  (h.functions.flatMap_right _).append (h.classes.flatMap_right _)

theorem internedTexts : e'.internedTexts.Perm e.internedTexts := by
  have hnamespace : e'.namespaceText = e.namespaceText := congrArg QualifiedName.joined h.path
  unfold Extension.internedTexts
  rw [hnamespace]
  exact (((h.classes.map _).cons _).append (h.functionNamespaces.map _)).append
    (h.references.map _)

theorem size_interner : e'.interner.size = e.interner.size :=
  (Interner.strings_ofList_perm h.internedTexts).length_eq

/-! What validation finds. -/

theorem inherits (hnodup : (e.classes.map (·.name.folded)).Nodup) :
    Inherits e'.classes = Inherits e.classes := by
  have hnodup' : (e'.classes.map (·.name.folded)).Nodup := (h.classes.map _).nodup_iff.mpr hnodup
  funext a b
  unfold Inherits
  congr! 3 with c
  rw [Sequence.find?_eq_some_iff hnodup, Sequence.find?_eq_some_iff hnodup', h.classes.mem_iff]

theorem claims : (Claim.shared e').Perm (Claim.shared e) := by
  unfold Claim.shared
  rw [h.path]
  exact ((h.functionNamespaces.map _).append (h.functions.flatMap_right _)).append
    (h.classes.flatMap_right _)

theorem consistent (he : e.Consistent) : e'.Consistent where
  path := h.path ▸ he.path
  function := fun f hf => he.function f (h.functions.mem_iff.mp hf)
  functions := (h.functions.map _).nodup_iff.mpr he.functions
  cls := fun c hc => he.cls c (h.classes.mem_iff.mp hc)
  classes := (h.classes.map _).nodup_iff.mpr he.classes
  acyclic := h.inherits he.classes ▸ he.acyclic
  parent := fun c hc q hq d hd =>
    he.parent c (h.classes.mem_iff.mp hc) q hq d (h.classes.mem_iff.mp hd)
  claims := fun a ha b hb => he.claims a (h.claims.mem_iff.mp ha) b (h.claims.mem_iff.mp hb)
  supertypes := fun c hc => he.supertypes c (h.classes.mem_iff.mp hc)

theorem undeclared : (undeclared e').Perm (undeclared e) := by
  have hnames : ∀ name, name ∈ e'.classes.map (·.name.folded) ↔
      name ∈ e.classes.map (·.name.folded) := fun name => (h.classes.map _).mem_iff
  unfold Validation.undeclared Extension.unresolved
  simp only [hnames]
  exact (h.references.filter _).map _

theorem warnings (mode : Mode) :
    ((e'.validate mode).warnings).Perm (e.validate mode).warnings := by
  cases mode with
  | lenient => exact h.undeclared
  | closedWorld => exact List.Perm.nil

theorem errors_eq_nil {mode : Mode} (he : (e.validate mode).errors = []) :
    (e'.validate mode).errors = [] := by
  cases mode with
  | lenient => exact (errors_eq_nil_iff e').mpr (h.consistent ((errors_eq_nil_iff e).mp he))
  | closedWorld =>
    rw [closedWorld_eq_nil_iff, errors_eq_nil_iff] at he ⊢
    refine ⟨h.consistent he.1, ?_⟩
    have hwarnings := h.warnings .lenient
    rw [he.2] at hwarnings
    exact hwarnings.eq_nil

end Extension.Reorders

theorem generate_ok_iff (config : Config) (e : Extension) :
    (∃ out, generate config e = .ok out) ↔
      (e.validate config.mode).errors = [] ∧ ∀ c ∈ e.classes, c.Apart := by
  have hemit : (∃ out, generate config e = .ok out) ↔
      (e.validate config.mode).errors = [] ∧ ∃ text, emit config.options e = .ok text := by
    simp only [generate_eq_ok_iff]
    constructor
    · rintro ⟨out, herrors, -, htext⟩
      exact ⟨herrors, _, htext⟩
    · rintro ⟨herrors, text, htext⟩
      exact ⟨⟨text, _⟩, herrors, rfl, htext⟩
  rw [hemit]
  apply and_congr_right
  intro herrors
  have accepted := accepted_of_errors herrors
  rw [emit_ok_iff]
  exact forall₂_congr fun c hc => ofClass_ok_iff accepted hc

theorem Extension.Reorders.generate_ok {e e' : Extension} (h : e.Reorders e') {config : Config}
    (hok : ∃ out, generate config e = .ok out) : ∃ out, generate config e' = .ok out := by
  rw [generate_ok_iff] at hok ⊢
  exact ⟨h.errors_eq_nil hok.1, fun c hc => hok.2 c (h.classes.mem_iff.mp hc)⟩

namespace Header

/-! Argument information of signatures that differ. -/
namespace ArgInfo

theorem share_eq_map {owners : Owners} {ds : List (String × Signature)}
    (hnew : ∀ digest, ∀ o ∈ owners.bucket digest, ∀ d ∈ ds, ¬ o.2.Same d.2)
    (hds : ds.Pairwise fun d other => ¬ d.2.Same other.2) :
    share owners ds = ds.map fun d => .block d.1 d.2 := by
  induction ds generalizing owners with
  | nil => rfl
  | cons d rest ih =>
    obtain ⟨hd, hrest⟩ := List.pairwise_cons.mp hds
    have hnone : owners.find? d.2 = none := by
      unfold Owners.find?
      rw [List.find?_eq_none]
      intro o ho
      rw [decide_eq_true_eq]
      exact hnew _ o ho d List.mem_cons_self
    have hadded : ∀ digest, ∀ o ∈ (owners.add d).bucket digest, ∀ other ∈ rest,
        ¬ o.2.Same other.2 := by
      intro digest o ho other hother
      have hold : o ∈ owners.bucket digest → ¬ o.2.Same other.2 := fun ho =>
        hnew digest o ho other (List.mem_cons_of_mem d hother)
      rw [Owners.bucket_add] at ho
      split at ho
      · rcases List.mem_append.mp ho with ho | ho
        · exact hold ho
        · cases List.mem_singleton.mp ho
          exact hd other hother
      · exact hold ho
    unfold share
    rw [hnone, List.map_cons, ← ih hadded hrest]

end ArgInfo

def Unshared (sharesArgInfo : Bool) (e : Extension) : Prop :=
  sharesArgInfo = false ∨ (declarations e).Pairwise fun d other => ¬ d.2.Same other.2

theorem Unshared.argInfos {sharesArgInfo : Bool} {e : Extension} (h : Unshared sharesArgInfo e) :
    argInfos sharesArgInfo e = (declarations e).map fun d => .block d.1 d.2 := by
  unfold Header.argInfos
  split
  · rename_i hshares
    rcases h with h | h
    · exact absurd h (by simp [hshares])
    · apply ArgInfo.share_eq_map _ h
      intro digest o ho
      exact absurd ho List.not_mem_nil
  · rfl

/-! The routine of a class depends on the interner only through the names that it finds. -/
section interner

variable {t u : Interner}

def Agree (t u : Interner) (q : QualifiedName) : Prop :=
  (t.get? q.display).bind t.resolve? = (u.get? q.display).bind u.resolve?

theorem holdClasses_congr (property : String) {classes : List QualifiedName}
    (h : ∀ q ∈ classes, Agree t u q) :
    holdClasses t property classes = holdClasses u property classes := by
  induction classes with
  | nil => rfl
  | cons q rest ih =>
    have hrest := ih fun q' hq' => h q' (List.mem_cons_of_mem q hq')
    unfold holdClasses
    rw [h q List.mem_cons_self, hrest]

theorem declareProperty_congr {p : Property} (h : ∀ q ∈ p.classes, Agree t u q) :
    declareProperty t p = declareProperty u p := by
  have htype : storeType t p = storeType u p := by
    unfold storeType
    cases ht : p.type? with
    | none => rfl
    | some type =>
      rw [Property.classes_eq ht] at h
      simp only [holdClasses_congr p.name h]
  unfold declareProperty
  rw [htype]

theorem declareProperties_congr {properties : List Property}
    (h : ∀ p ∈ properties, ∀ q ∈ p.classes, Agree t u q) :
    declareProperties t properties = declareProperties u properties := by
  induction properties with
  | nil => rfl
  | cons p rest ih =>
    have hrest := ih fun p' hp' => h p' (List.mem_cons_of_mem p hp')
    unfold declareProperties
    rw [declareProperty_congr (h p List.mem_cons_self), hrest]

theorem ofClass_congr {c : Class} (h : ∀ p ∈ c.properties, ∀ q ∈ p.classes, Agree t u q) :
    Routine.ofClass t c = Routine.ofClass u c := by
  unfold Routine.ofClass
  rw [declareProperties_congr h]

end interner

theorem map_ofClass_of_routines {interner : Interner} {classes : List Class} {rs : List Routine}
    (h : routines interner classes = .ok rs) :
    classes.map (Routine.ofClass interner) = rs.map .ok := by
  rw [← List.forall₂_eq_eq_eq, List.forall₂_map_left_iff, List.forall₂_map_right_iff]
  exact routines_eq_ok_iff.mp h

theorem Section.written_perm {s s' : Section} (h : s.lines.Perm s'.lines) :
    s.written.Perm s'.written := by
  rw [Section.written_eq, Section.written_eq]
  exact (h.flatMap_right _).append_right _

theorem written_forward_perm {handlers others : List Handler} (h : handlers.Perm others) :
    ((forward handlers).flatMap (·.written)).Perm ((forward others).flatMap (·.written)) := by
  cases handlers with
  | nil => rw [h.nil_eq]
  | cons first rest =>
    cases others with
    | nil => exact absurd h.eq_nil (List.cons_ne_nil first rest)
    | cons other others =>
      have hwritten : (Section.forward (first :: rest)).written.Perm
          (Section.forward (other :: others)).written := Section.written_perm (h.map _)
      simpa only [forward, List.flatMap_singleton] using hwritten

end Header

/-! What is written for the declarations. -/
namespace Extension.Reorders

variable {e e' : Extension} (h : e.Reorders e')

include h

theorem declarations : (declarations e').Perm (declarations e) :=
  (h.functions.map _).append (h.classes.flatMap_right _)

theorem handlers : (handlers e').Perm (handlers e) :=
  (h.functions.map _).append (h.classes.flatMap_right _)

theorem unshared {sharesArgInfo : Bool} (hunshared : Unshared sharesArgInfo e) :
    Unshared sharesArgInfo e' := by
  refine hunshared.imp_right fun hdistinct => ?_
  refine (List.Perm.pairwise_iff ?_ h.declarations).mpr hdistinct
  exact fun hne hsame => hne hsame.symm

theorem written_tables :
    (((functionTables e').map Section.table).flatMap (·.written)).Perm
      (((functionTables e).map Section.table).flatMap (·.written)) := by
  have hpaths : (e'.path :: e'.functionNamespaces.filter (· ≠ e'.path)).Perm
      (e.path :: e.functionNamespaces.filter (· ≠ e.path)) := by
    rw [h.path]
    exact (h.functionNamespaces.filter _).cons _
  unfold functionTables
  rw [List.map_map, List.map_map, List.flatMap_map, List.flatMap_map]
  refine hpaths.flatMap fun path _ => Section.written_perm ?_
  show (EntryTable.ofNamespace e' path).lines.Perm (EntryTable.ofNamespace e path).lines
  have hentries : (EntryTable.ofNamespace e' path).entries.Perm
      (EntryTable.ofNamespace e path).entries := (h.functions.filter _).map _
  have hname : (EntryTable.ofNamespace e' path).name = (EntryTable.ofNamespace e path).name :=
    congrArg (Identifier.functionTable path) h.path
  unfold EntryTable.lines
  rw [hname]
  exact ((hentries.map _).cons _).append_right _

theorem routines (small : e.interner.size ≤ UInt32.size) {rs rs' : List Routine}
    (hrs : Header.routines e.interner e.classes = .ok rs)
    (hrs' : Header.routines e'.interner e'.classes = .ok rs') : rs'.Perm rs := by
  have hsame : e'.classes.map (Routine.ofClass e'.interner) =
      e'.classes.map (Routine.ofClass e.interner) := by
    apply List.map_congr_left
    intro c hc
    apply ofClass_congr
    intro p hp q hq
    -- Both interners hold the name and give it back.
    obtain ⟨symbol, hs⟩ := Extension.exists_symbol (h.classes.mem_iff.mp hc) hp hq
    obtain ⟨symbol', hs'⟩ := Extension.exists_symbol hc hp hq
    unfold Agree
    rw [hs, hs', Option.bind_some, Option.bind_some, Interner.resolve?_of_get? hs small,
      Interner.resolve?_of_get? hs' (h.size_interner ▸ small)]
  have hperm := h.classes.map (Routine.ofClass e.interner)
  rw [← hsame, map_ofClass_of_routines hrs, map_ofClass_of_routines hrs'] at hperm
  exact (List.map_perm_map_iff fun _ _ => Except.ok.inj).mp hperm

theorem lines {options : Options} {text text' : String} (small : e.interner.size ≤ UInt32.size)
    (hunshared : Unshared options.sharesArgInfo e) (htext : emit options e = .ok text)
    (htext' : emit options e' = .ok text') : (Text.lines text').Perm (Text.lines text) := by
  obtain ⟨ss, hss, rfl⟩ := map_eq_ok_iff.mp htext
  obtain ⟨ss', hss', rfl⟩ := map_eq_ok_iff.mp htext'
  rw [sections_eq, map_eq_ok_iff] at hss hss'
  obtain ⟨rs, hrs, rfl⟩ := hss
  obtain ⟨rs', hrs', rfl⟩ := hss'
  -- The table of the extension's own namespace is always there.
  rw [lines_render (by simp [trailing, functionTables]),
    lines_render (by simp [trailing, functionTables]), (h.unshared hunshared).argInfos,
    hunshared.argInfos]
  unfold trailing
  simp only [List.flatMap_append]
  have hargInfos := ((h.declarations.map fun d => ArgInfo.block d.1 d.2).map
    Section.argInfo).flatMap_right (·.written)
  have hmethods := (h.classes.map fun c => Section.table (EntryTable.ofClass c)).flatMap_right
    (·.written)
  have hroutines := ((h.routines small hrs hrs').map Section.routine).flatMap_right (·.written)
  exact (hargInfos.append_left _).append
    (((written_forward_perm h.handlers).append h.written_tables).append hmethods |>.append
      hroutines)

end Extension.Reorders

/-- The order of functions and classes decides neither whether a header is generated nor what the
warnings are. It moves lines of the header about, but changes none, unless declarations share their
argument information; symbols of interned names are told apart as long as they fit a word. -/
theorem generate_reorders {e e' : Extension} (h : e.Reorders e') (config : Config) :
    ((∃ out, generate config e = .ok out) ↔ ∃ out, generate config e' = .ok out) ∧
      ∀ out out', generate config e = .ok out → generate config e' = .ok out' →
        out'.warnings.Perm out.warnings ∧
        (e.interner.size ≤ UInt32.size →
          config.sharesArgInfo = false ∨
            ((declarations e).Pairwise fun d other => ¬ d.2.Same other.2) →
          (Text.lines out'.text).Perm (Text.lines out.text)) := by
  refine ⟨⟨h.generate_ok, h.symm.generate_ok⟩, fun out out' hout hout' => ?_⟩
  obtain ⟨-, hwarnings, htext⟩ := generate_eq_ok_iff.mp hout
  obtain ⟨-, hwarnings', htext'⟩ := generate_eq_ok_iff.mp hout'
  rw [hwarnings, hwarnings']
  refine ⟨h.warnings config.mode, fun small hunshared => ?_⟩
  have hunshared : Unshared config.options.sharesArgInfo e := hunshared
  exact h.lines small hunshared htext htext'

def exchange : Extension where
  path := ["Tel"]
  functions := [{ name := ⟨["Tel"], "dial"⟩, signature := { parameters := [{ name := "number" }] } },
    { name := ⟨[], "hang_up"⟩ }]
  classes := [{ name := ⟨["Tel"], "Line"⟩, isFinal := true },
    { name := ⟨["Tel"], "Call"⟩, interfaces := [⟨[], "Countable"⟩]
      properties := [{ name := "line", type? := some (.cls ⟨["Tel"], "Line"⟩) }] }]

def exchangeReversed : Extension where
  path := exchange.path
  functions := exchange.functions.reverse
  classes := exchange.classes.reverse

theorem generate_reorders_exchange :
    ∃ out out', generate {} exchange = .ok out ∧ generate {} exchangeReversed = .ok out' ∧
      out'.warnings.Perm out.warnings ∧ (Text.lines out'.text).Perm (Text.lines out.text) := by
  have h : exchange.Reorders exchangeReversed :=
    ⟨rfl, exchange.functions.reverse_perm, exchange.classes.reverse_perm⟩
  obtain ⟨hok, hboth⟩ := generate_reorders h {}
  have hgenerated : ∃ out, generate {} exchange = .ok out :=
    exists_generate_eq_ok (by decide +kernel) (by decide +kernel)
  obtain ⟨out, hout⟩ := hgenerated
  obtain ⟨out', hout'⟩ := hok.mp ⟨out, hout⟩
  obtain ⟨hwarnings, hlines⟩ := hboth out out' hout hout'
  exact ⟨out, out', hout, hout', hwarnings,
    hlines (by decide +kernel) (.inr (by decide +kernel))⟩

end ExtensionHeader
