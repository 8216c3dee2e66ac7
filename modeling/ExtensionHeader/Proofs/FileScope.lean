import ExtensionHeader.Proofs.Collision
import ExtensionHeader.Proofs.Emission
import ExtensionHeader.Proofs.Reading.Lines
import Mathlib.Data.List.Flatten

/-! The names that the header defines at file scope. Names of different kinds begin differently;
names of one kind are kept apart by the claims of validation. -/
namespace ExtensionHeader

open Header

namespace Header

def Handler.symbol : Handler → String
  | function name => "zif_" ++ name
  | method cls name => "zim_" ++ (cls ++ "_" ++ name)

def Section.defines : Section → List String
  | banner => []
  | argInfo item => [item.name]
  | forward handlers => handlers.map (·.symbol)
  | table entries => [entries.name]
  | routine code => [code.name]

def openers : List String :=
  ["ZEND_BEGIN_ARG_INFO_EX(", "ZEND_BEGIN_ARG_WITH_RETURN_TYPE_INFO_EX(",
    "ZEND_BEGIN_ARG_WITH_RETURN_OBJ_INFO_EX(", "ZEND_BEGIN_ARG_WITH_RETURN_TYPE_MASK_EX(",
    "ZEND_BEGIN_ARG_WITH_RETURN_OBJ_TYPE_MASK_EX("]

/-- A line that defines a name at file scope. The macros for handlers make longer names of theirs. -/
inductive Defines : (line name : String) → Prop
  | block {opener : String} (h : opener ∈ openers) (name rest : String) :
    Defines (opener ++ name ++ rest) name
  | synonym (name owner : String) : Defines ("#define " ++ name ++ " " ++ owner) name
  | function (name : String) : Defines ("ZEND_FUNCTION(" ++ name ++ ");") ("zif_" ++ name)
  | method (cls name : String) :
    Defines ("ZEND_METHOD(" ++ cls ++ ", " ++ name ++ ");") ("zim_" ++ (cls ++ "_" ++ name))
  | table (name : String) :
    Defines ("static const zend_function_entry " ++ name ++ "[] = \x7b") name
  | routine (name parameters : String) :
    Defines ("static zend_class_entry *" ++ name ++ "(" ++ parameters ++ ")") name

theorem defines_opening (name : String) (s : Signature) : Defines (opening name s) name := by
  have hcall : ∀ {macroName : String} (next : String) (args : List String),
      macroName ++ "(" ∈ openers → Defines (call macroName (name :: next :: args)) name := by
    intro macroName next args h
    rw [call_cons macroName name (List.cons_ne_nil next args)]
    exact .block h name _
  unfold opening
  dsimp only
  cases ArgType.of s.returns? with
  | untyped => exact hcall _ _ (by decide)
  | code => exact hcall _ _ (by decide : "ZEND_BEGIN_ARG_WITH_RETURN_TYPE_INFO_EX(" ∈ openers)
  | object => exact hcall _ _ (by decide : "ZEND_BEGIN_ARG_WITH_RETURN_OBJ_INFO_EX(" ∈ openers)
  | mask => exact hcall _ _ (by decide : "ZEND_BEGIN_ARG_WITH_RETURN_TYPE_MASK_EX(" ∈ openers)
  | objectMask =>
    exact hcall _ _ (by decide : "ZEND_BEGIN_ARG_WITH_RETURN_OBJ_TYPE_MASK_EX(" ∈ openers)

theorem Handler.defines_line (handler : Handler) : Defines handler.line.text handler.symbol := by
  cases handler with
  | function name =>
    have htext : (Handler.function name).line.text = "ZEND_FUNCTION(" ++ name ++ ");" :=
      String.append_assoc
    rw [htext]
    exact .function name
  | method cls name =>
    have htext : (Handler.method cls name).line.text =
        "ZEND_METHOD(" ++ cls ++ ", " ++ name ++ ");" := by
      show "ZEND_METHOD" ++ "(" ++ (cls ++ ", " ++ name) ++ ")" ++ ";" = _
      simp only [← String.append_assoc]
      exact String.append_assoc
    rw [htext]
    exact .method cls name

/-- Each name has a line of its own in the section. -/
theorem Section.exists_lines_define (s : Section) :
    ∃ lines : List Text.Line, lines.Sublist s.lines ∧
      List.Forall₂ (fun l name => Defines l.text name) lines s.defines := by
  have hfirst : ∀ {l : Text.Line} {rest : List Text.Line} {name : String}, Defines l.text name →
      ∃ lines : List Text.Line, lines.Sublist (l :: rest) ∧
        List.Forall₂ (fun l name => Defines l.text name) lines [name] :=
    fun h => ⟨[_], List.singleton_sublist.mpr List.mem_cons_self, .cons h .nil⟩
  cases s with
  | banner => exact ⟨[], List.nil_sublist _, .nil⟩
  | argInfo item =>
    cases item with
    | block name signature => exact hfirst (defines_opening name signature)
    | synonym name owner => exact hfirst (.synonym name owner)
  | forward handlers =>
    refine ⟨_, List.Sublist.refl _, ?_⟩
    show List.Forall₂ _ (handlers.map (·.line)) (handlers.map (·.symbol))
    rw [List.forall₂_map_left_iff, List.forall₂_map_right_iff, List.forall₂_same]
    exact fun handler _ => handler.defines_line
  | table entries => exact hfirst (.table entries.name)
  | routine code => exact hfirst (Defines.routine code.name _)

theorem name_share (owners : ArgInfo.Owners) (ds : List (String × Signature)) :
    (ArgInfo.share owners ds).map (·.name) = ds.map (·.1) := by
  induction ds generalizing owners with
  | nil => rfl
  | cons d rest ih =>
    unfold ArgInfo.share
    split
    · rw [List.map_cons, ih]
      rfl
    · rw [List.map_cons, ih]
      rfl

theorem name_argInfos (shares : Bool) (e : Extension) :
    (argInfos shares e).map (·.name) = (declarations e).map (·.1) := by
  cases shares with
  | true => exact name_share {} _
  | false =>
    unfold argInfos
    rw [if_neg (by decide), List.map_map]
    rfl

theorem name_ofClass {interner : Interner} {c : Class} {r : Routine}
    (h : Routine.ofClass interner c = .ok r) : r.name = Identifier.registration c.name := by
  simp only [Routine.ofClass, bind_eq_ok_iff] at h
  obtain ⟨statements, -, h⟩ := h
  split at h
  · cases Except.ok.inj h
    rfl
  · contradiction

theorem name_routines {interner : Interner} {classes : List Class} {rs : List Routine}
    (h : routines interner classes = .ok rs) :
    rs.map (·.name) = classes.map fun c => Identifier.registration c.name := by
  symm
  rw [← List.forall₂_eq_eq_eq, List.forall₂_map_left_iff, List.forall₂_map_right_iff]
  exact (routines_eq_ok_iff.mp h).imp fun c r hr => (name_ofClass hr).symm

theorem name_declarations (e : Extension) :
    (declarations e).map (·.1) = (Validation.Claim.argInfos e).map (·.identifier) := by
  unfold declarations Validation.Claim.argInfos
  rw [List.map_append, List.map_append, List.map_map, List.map_map, List.map_flatMap,
    List.map_flatMap]
  simp only [List.map_map]
  rfl

/-- The names that the header defines, by their kinds: each kind has a beginning of its own. -/
def kinds (e : Extension) : List (String × List String) :=
  [("arg", (declarations e).map (·.1)),
    ("zif", e.functions.map fun f => "zif_" ++ Identifier.ofName f.name),
    ("zim", e.classes.flatMap fun c => (c.methods.filter fun m => !m.isAbstract).map fun m =>
      "zim_" ++ (Identifier.ofName c.name ++ "_" ++ m.name)),
    ("ext", (functionTables e).map (·.name)),
    ("cla", e.classes.map fun c => Identifier.methodTable c.name),
    ("reg", e.classes.map fun c => Identifier.registration c.name)]

theorem symbol_handlers (e : Extension) :
    (handlers e).map (·.symbol) =
      (e.functions.map fun f => "zif_" ++ Identifier.ofName f.name) ++
        e.classes.flatMap fun c => (c.methods.filter fun m => !m.isAbstract).map fun m =>
          "zim_" ++ (Identifier.ofName c.name ++ "_" ++ m.name) := by
  unfold handlers
  rw [List.map_append, List.map_map, List.map_flatMap]
  simp only [List.map_map]
  rfl

theorem defines_map {α : Type} {f : α → Section} {name : α → String}
    (h : ∀ x, (f x).defines = [name x]) (xs : List α) :
    (xs.map f).flatMap Section.defines = xs.map name := by
  rw [List.flatMap_map, List.map_eq_flatMap]
  exact List.flatMap_congr fun x _ => h x

theorem defines_leading (hasBanner : Bool) : (leading hasBanner).flatMap Section.defines = [] := by
  unfold leading
  split <;> rfl

theorem defines_forward (handlers : List Handler) :
    (forward handlers).flatMap Section.defines = handlers.map (·.symbol) := by
  cases handlers with
  | nil => rfl
  | cons handler rest => exact List.append_nil _

theorem defines_sections {options : Options} {e : Extension} {ss : List Section}
    (h : sections options e = .ok ss) :
    ss.flatMap Section.defines = (kinds e).flatMap (·.2) := by
  rw [sections_eq, map_eq_ok_iff] at h
  obtain ⟨rs, hrs, rfl⟩ := h
  have hitems := defines_map (f := .argInfo) (fun _ => rfl) (argInfos options.sharesArgInfo e)
  have htables := defines_map (f := .table) (fun _ => rfl) (functionTables e)
  have hmethods := defines_map (f := fun c => .table (EntryTable.ofClass c)) (fun _ => rfl)
    e.classes
  have hroutines := defines_map (f := .routine) (fun _ => rfl) rs
  unfold trailing kinds
  simp only [List.flatMap_append, List.flatMap_cons, List.flatMap_nil, List.append_assoc]
  rw [defines_leading, defines_forward, symbol_handlers, hitems, htables, hmethods, hroutines,
    name_argInfos, name_routines hrs]
  simp only [List.nil_append, List.append_nil, List.append_assoc]
  rfl

theorem nodup_of_kinds {kinds : List (String × List String)} (htags : (kinds.map (·.1)).Nodup)
    (hkind : ∀ kind ∈ kinds, ∀ name ∈ kind.2, name.toList.take 3 = kind.1.toList)
    (hnodup : ∀ kind ∈ kinds, kind.2.Nodup) : (kinds.flatMap (·.2)).Nodup := by
  rw [List.nodup_flatMap]
  refine ⟨hnodup, ?_⟩
  apply (List.pairwise_map.mp htags).imp_of_mem
  intro first other hfirst hother htag name hf ho
  apply htag
  rw [← String.toList_inj, ← hkind first hfirst name hf, hkind other hother name ho]

theorem take_append (tag text : String) (h : 3 ≤ tag.toList.length) :
    (tag ++ text).toList.take 3 = tag.toList.take 3 := by
  rw [String.toList_append, List.take_append_of_le_length h]

end Header

namespace Identifier

theorem take_functionArgInfo (q : QualifiedName) :
    (functionArgInfo q).toList.take 3 = "arg".toList :=
  take_append "arginfo_" _ (by decide)

theorem methodArgInfo_eq (q : QualifiedName) (method : String) :
    methodArgInfo q method = "arginfo_class_" ++ (ofName q ++ "_" ++ method) := by
  unfold methodArgInfo
  rw [String.append_assoc, String.append_assoc, String.append_assoc]

theorem take_methodArgInfo (q : QualifiedName) (method : String) :
    (methodArgInfo q method).toList.take 3 = "arg".toList := by
  rw [methodArgInfo_eq]
  exact take_append "arginfo_class_" _ (by decide)

theorem take_functionTable (path own : List String) :
    (functionTable path own).toList.take 3 = "ext".toList := by
  unfold functionTable
  split
  · decide
  · split
    · decide
    · rw [String.append_assoc]
      exact take_append "ext_" _ (by decide)

theorem take_methodTable (q : QualifiedName) :
    (methodTable q).toList.take 3 = "cla".toList := by
  unfold methodTable
  rw [String.append_assoc]
  exact take_append "class_" _ (by decide)

theorem take_registration (q : QualifiedName) :
    (registration q).toList.take 3 = "reg".toList :=
  take_append "register_class_" _ (by decide)

theorem functionTable_ne (path own : List String) (h : path ≠ own) :
    functionTable path own ≠ functionTable own own := by
  intro heq
  have hlength := congrArg String.length heq
  unfold functionTable at hlength
  rw [if_neg h, if_pos rfl] at hlength
  split at hlength
  · contradiction
  · rw [String.length_append, String.length_append] at hlength
    have hext : "ext_".length = 4 := rfl
    have hfunctions : "_functions".length = 10 := rfl
    have hown : "ext_functions".length = 13 := rfl
    omega

end Identifier

namespace Header

theorem take_of_mem_kinds (e : Extension) :
    ∀ kind ∈ kinds e, ∀ name ∈ kind.2, name.toList.take 3 = kind.1.toList := by
  unfold kinds
  simp only [List.forall_mem_cons, List.forall_mem_map, List.forall_mem_flatMap]
  refine ⟨?_, ?_, ?_, ?_, ?_, ?_, fun _ h => absurd h List.not_mem_nil⟩
  · intro d hd
    rcases List.mem_append.mp hd with hd | hd
    · obtain ⟨f, -, rfl⟩ := List.mem_map.mp hd
      exact Identifier.take_functionArgInfo f.name
    · obtain ⟨c, -, hd⟩ := List.mem_flatMap.mp hd
      obtain ⟨m, -, rfl⟩ := List.mem_map.mp hd
      exact Identifier.take_methodArgInfo c.name m.name
  · exact fun f _ => take_append "zif_" _ (by decide)
  · exact fun c _ m _ => take_append "zim_" _ (by decide)
  · intro table htable
    obtain ⟨path, -, rfl⟩ := List.mem_map.mp htable
    exact Identifier.take_functionTable path e.path
  · exact fun c _ => Identifier.take_methodTable c.name
  · exact fun c _ => Identifier.take_registration c.name

def methodTails (e : Extension) : List String :=
  e.classes.flatMap fun c => c.methods.map fun m => Identifier.ofName c.name ++ "_" ++ m.name

section nodup

variable {e : Extension} (h : e.Accepted) (hcollisions : Validation.collisions e = [])

include h hcollisions

theorem nodup_methodTails : (methodTails e).Nodup := by
  have hnames := h.nodup_argInfoNames hcollisions
  have htails : (e.classes.flatMap fun c => c.methods.map (Validation.Claim.ofMethod c)).map
      (·.identifier) = (methodTails e).map ("arginfo_class_" ++ ·) := by
    unfold methodTails
    rw [List.map_flatMap, List.map_flatMap]
    simp only [List.map_map]
    apply List.flatMap_congr
    intro c _
    apply List.map_congr_left
    intro m _
    exact Identifier.methodArgInfo_eq c.name m.name
  unfold Validation.Claim.argInfos at hnames
  rw [List.map_append, htails, List.nodup_append'] at hnames
  exact List.Nodup.of_map _ hnames.2.1

theorem nodup_methodHandlers :
    (e.classes.flatMap fun c => (c.methods.filter fun m => !m.isAbstract).map fun m =>
      "zim_" ++ (Identifier.ofName c.name ++ "_" ++ m.name)).Nodup := by
  have hall : ((methodTails e).map ("zim_" ++ ·)).Nodup := by
    apply (nodup_methodTails h hcollisions).map
    intro s t hst
    exact (String.append_right_inj _).mp hst
  refine List.Nodup.sublist ?_ hall
  unfold methodTails
  rw [List.map_flatMap]
  simp only [List.map_map]
  apply List.Sublist.flatMap_right
  intro c _
  exact List.filter_sublist.map _

theorem nodup_tables : ((functionTables e).map (·.name)).Nodup := by
  have hnames : ((e.functionNamespaces.filter (· ≠ e.path)).map fun path =>
      Identifier.functionTable path e.path).Nodup :=
    List.Nodup.sublist (List.filter_sublist.map _) (h.nodup_tableNames hcollisions)
  have htables : (functionTables e).map (·.name) =
      Identifier.functionTable e.path e.path ::
        (e.functionNamespaces.filter (· ≠ e.path)).map fun path =>
          Identifier.functionTable path e.path := by
    unfold functionTables
    rw [List.map_map]
    rfl
  rw [htables, List.nodup_cons]
  refine ⟨?_, hnames⟩
  intro hmem
  obtain ⟨path, hpath, heq⟩ := List.mem_map.mp hmem
  have hne := List.of_mem_filter hpath
  exact Identifier.functionTable_ne path e.path (of_decide_eq_true hne) heq

theorem nodup_of_mem_kinds : ∀ kind ∈ kinds e, kind.2.Nodup := by
  have hfunctions := h.nodup_functionNames hcollisions
  have hclasses := h.nodup_classNames hcollisions
  unfold kinds
  simp only [List.forall_mem_cons]
  refine ⟨?_, ?_, nodup_methodHandlers h hcollisions, nodup_tables h hcollisions, ?_, ?_,
    fun _ h => absurd h List.not_mem_nil⟩
  · rw [name_declarations]
    exact h.nodup_argInfoNames hcollisions
  · apply Sequence.nodup_map_of_determines hfunctions
    intro f _ g _ heq
    exact (String.append_right_inj _).mp heq
  · apply Sequence.nodup_map_of_determines hclasses
    intro c _ d _ heq
    exact (String.append_right_inj _).mp ((String.append_left_inj _).mp heq)
  · apply Sequence.nodup_map_of_determines hclasses
    intro c _ d _ heq
    exact (String.append_right_inj _).mp heq

end nodup

/-- No two declarations of an extension without errors have one name at file scope. -/
theorem nodup_defines {e : Extension} {mode : Validation.Mode}
    (h : (e.validate mode).errors = []) {options : Options} {text : String}
    (hemit : emit options e = .ok text) :
    ∃ ss, sections options e = .ok ss ∧ text = render ss ∧ (ss.flatMap Section.defines).Nodup ∧
      ss.flatMap Section.defines = (kinds e).flatMap (·.2) ∧
      ∀ s ∈ ss, ∃ lines : List Text.Line, lines.Sublist s.lines ∧
        List.Forall₂ (fun l name => Defines l.text name) lines s.defines := by
  have accepted := Validation.accepted_of_errors h
  have hcollisions := (Validation.errors_eq_nil h).2.2
  obtain ⟨ss, hss, htext⟩ := map_eq_ok_iff.mp hemit
  have hdefines := defines_sections hss
  refine ⟨ss, hss, htext.symm, ?_, hdefines, fun s _ => s.exists_lines_define⟩
  rw [hdefines]
  apply nodup_of_kinds
  · show ["arg", "zif", "zim", "ext", "cla", "reg"].Nodup
    decide
  · exact take_of_mem_kinds e
  · exact nodup_of_mem_kinds accepted hcollisions

def sockets : Extension where
  path := ["Net"]
  functions := [{ name := ⟨["Net"], "open"⟩ }, { name := ⟨[], "class_Net_Socket_open"⟩ },
    { name := ⟨["Net", "Tls"], "open"⟩ }]
  classes := [{
    name := ⟨["Net"], "Socket"⟩
    methods := [{ name := "open_" }, { name := "close", isAbstract := true }]
    isAbstract := true }]

theorem nodup_defines_sockets :
    (sockets.validate .closedWorld).errors = [] ∧
      ∃ text ss, emit {} sockets = .ok text ∧ sections {} sockets = .ok ss ∧
        (ss.flatMap Section.defines).Nodup := by
  have h : (sockets.validate .closedWorld).errors = [] := by decide +kernel
  have hroutines : (routines sockets.interner sockets.classes).toOption.isSome := by
    decide +kernel
  refine ⟨h, ?_⟩
  cases hemit : emit {} sockets with
  | ok text =>
    obtain ⟨ss, hss, -, hnodup, -⟩ := nodup_defines h hemit
    exact ⟨text, ss, rfl, hss, hnodup⟩
  | error defect =>
    rw [(emit_eq_error_iff {} sockets defect).mp hemit] at hroutines
    contradiction

end Header

end ExtensionHeader
