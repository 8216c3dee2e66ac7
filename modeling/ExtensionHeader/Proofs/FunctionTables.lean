import ExtensionHeader.Proofs.Emission
import ExtensionHeader.Proofs.Grouping
import ExtensionHeader.Proofs.Reading.Lines

/-! The function tables divide the functions of an extension: every declaration has one row, in the
table of its namespace. The order of rows and of tables follows the declarations, and nothing is left
to choose. -/
namespace ExtensionHeader

open Header

namespace Sequence

variable {α : Type} [LinearOrder α] {xs ys : List α}

theorem head?_eq_some_iff_of_sortedLT (h : xs.SortedLT) {x : α} :
    xs.head? = some x ↔ x ∈ xs ∧ ∀ y ∈ xs, x ≤ y := by
  cases xs with
  | nil => simp
  | cons first rest =>
    have hfirst := (List.pairwise_cons.mp h.pairwise).1
    rw [List.head?_cons, Option.some.injEq]
    constructor
    · rintro rfl
      refine ⟨List.mem_cons_self, List.forall_mem_cons.mpr ⟨le_refl _, ?_⟩⟩
      exact fun y hy => (hfirst y hy).le
    · rintro ⟨hx, hle⟩
      rcases List.mem_cons.mp hx with rfl | hx
      · rfl
      · exact absurd (hle first List.mem_cons_self) (not_le_of_gt (hfirst x hx))

theorem sortedLT_of_sublist (h : ys.SortedLT) (hsub : xs.Sublist ys) : xs.SortedLT :=
  (h.pairwise.sublist hsub).sortedLT

end Sequence

abbrev Extension.Position (e : Extension) : Type := Fin e.functions.length

def Extension.home (e : Extension) (i : e.Position) : List String := e.functions[i].name.path

namespace Header

/-- A function table by what it lists: a namespace, and functions by their positions. -/
structure Sheet (e : Extension) where
  path : List String
  rows : List e.Position

variable {e : Extension}

def Sheet.table (s : Sheet e) : EntryTable :=
  ⟨Identifier.functionTable s.path e.path, s.rows.map fun i => Entry.ofFunction e.functions[i]⟩

/-- The functions divided among a first table, for the own namespace, and others. -/
structure IsDivision (first : Sheet e) (others : List (Sheet e)) : Prop where
  /-- Every declaration has one row in one table. -/
  once : ((first :: others).flatMap (·.rows)).Perm (List.finRange e.functions.length)
  home : ∀ s ∈ first :: others, ∀ i ∈ s.rows, e.home i = s.path
  ordered : ∀ s ∈ first :: others, s.rows.SortedLT
  own : first.path = e.path
  apart : ((first :: others).map (·.path)).Nodup
  nonempty : ∀ s ∈ others, s.rows ≠ []
  /-- The other tables come in the order of their first functions. -/
  leaders : (others.filterMap (·.rows.head?)).SortedLT

def Sheet.ofPath (e : Extension) (path : List String) : Sheet e :=
  ⟨path, (List.finRange e.functions.length).filter fun i => e.home i = path⟩

theorem Sheet.mem_rows_ofPath {path : List String} {i : e.Position} :
    i ∈ (ofPath e path).rows ↔ e.home i = path := by
  simp [ofPath]

theorem Sheet.sortedLT_rows_ofPath (path : List String) : (ofPath e path).rows.SortedLT :=
  Sequence.sortedLT_of_sublist (List.sortedLT_finRange _) List.filter_sublist

theorem Sheet.table_ofPath (path : List String) :
    (ofPath e path).table = EntryTable.ofNamespace e path := by
  have hfunctions : e.functionsIn path =
      (ofPath e path).rows.map fun i => e.functions[i] := by
    unfold Extension.functionsIn ofPath
    conv_lhs => rw [← List.map_getElem_finRange e.functions, List.filter_map]
    rfl
  unfold EntryTable.ofNamespace
  rw [hfunctions, List.map_map]
  rfl

namespace IsDivision

section

variable {first : Sheet e} {others : List (Sheet e)} (h : IsDivision first others)

include h

theorem exists_sheet (i : e.Position) : ∃ s ∈ first :: others, i ∈ s.rows :=
  List.mem_flatMap.mp (h.once.mem_iff.mpr (List.mem_finRange i))

theorem mem_rows_iff {s : Sheet e} (hs : s ∈ first :: others) {i : e.Position} :
    i ∈ s.rows ↔ e.home i = s.path := by
  refine ⟨h.home s hs i, fun hi => ?_⟩
  obtain ⟨t, ht, hit⟩ := h.exists_sheet i
  have hpath : t.path = s.path := (h.home t ht i hit).symm.trans hi
  rwa [List.inj_on_of_nodup_map h.apart ht hs hpath] at hit

theorem eq_ofPath {s : Sheet e} (hs : s ∈ first :: others) : s = .ofPath e s.path := by
  have hrows : s.rows = (Sheet.ofPath e s.path).rows := by
    apply (h.ordered s hs).eq_of_mem_iff (Sheet.sortedLT_rows_ofPath s.path)
    intro i
    rw [h.mem_rows_iff hs, Sheet.mem_rows_ofPath]
  cases s
  exact congrArg (Sheet.mk _) hrows

theorem first_eq : first = .ofPath e e.path := by
  rw [h.eq_ofPath List.mem_cons_self, h.own]

theorem path_ne {s : Sheet e} (hs : s ∈ others) : s.path ≠ e.path := by
  have hfirst : first.path ∉ others.map (·.path) := (List.nodup_cons.mp h.apart).1
  rw [h.own] at hfirst
  exact fun heq => hfirst (heq ▸ List.mem_map_of_mem hs)

/-- The tables other than the first one are led by the first functions of the other namespaces. -/
theorem mem_leaders_iff (i : e.Position) :
    i ∈ others.filterMap (·.rows.head?) ↔
      e.home i ≠ e.path ∧ ∀ j, e.home j = e.home i → i ≤ j := by
  rw [List.mem_filterMap]
  constructor
  · rintro ⟨s, hs, hhead⟩
    have hmem := List.mem_cons_of_mem first hs
    obtain ⟨hi, hfirst⟩ :=
      (Sequence.head?_eq_some_iff_of_sortedLT (h.ordered s hmem)).mp hhead
    have hpath := h.home s hmem i hi
    rw [hpath]
    exact ⟨h.path_ne hs, fun j hj => hfirst j ((h.mem_rows_iff hmem).mpr hj)⟩
  · rintro ⟨hforeign, hfirst⟩
    obtain ⟨s, hs, hi⟩ := h.exists_sheet i
    have hpath := h.home s hs i hi
    refine ⟨s, ?_, (Sequence.head?_eq_some_iff_of_sortedLT (h.ordered s hs)).mpr ⟨hi, ?_⟩⟩
    · rcases List.mem_cons.mp hs with rfl | hs
      · exact absurd (hpath.trans h.own) hforeign
      · exact hs
    · exact fun j hj => hfirst j ((h.home s hs j hj).trans hpath.symm)

theorem others_eq :
    others = (others.filterMap (·.rows.head?)).map fun i => .ofPath e (e.home i) := by
  symm
  calc (others.filterMap (·.rows.head?)).map (fun i => Sheet.ofPath e (e.home i))
      = others.filterMap fun s => s.rows.head?.map fun i => .ofPath e (e.home i) :=
        List.map_filterMap
    _ = others.filterMap some := List.filterMap_congr fun s hs => by
        have hmem := List.mem_cons_of_mem first hs
        obtain ⟨i, rest, hrows⟩ := List.exists_cons_of_ne_nil (h.nonempty s hs)
        have hi := h.home s hmem i (hrows ▸ List.mem_cons_self)
        rw [hrows, List.head?_cons, Option.map_some, hi, ← h.eq_ofPath hmem]
    _ = others := List.filterMap_some

end

variable {first other : Sheet e} {rest others : List (Sheet e)}

theorem unique (h : IsDivision first rest) (h' : IsDivision other others) :
    first = other ∧ rest = others := by
  have hleaders : rest.filterMap (·.rows.head?) = others.filterMap (·.rows.head?) := by
    apply h.leaders.eq_of_mem_iff h'.leaders
    intro i
    rw [h.mem_leaders_iff, h'.mem_leaders_iff]
  refine ⟨h.first_eq.trans h'.first_eq.symm, ?_⟩
  rw [h.others_eq, hleaders, ← h'.others_eq]

end IsDivision

def tablePaths (e : Extension) : List (List String) :=
  e.path :: e.functionNamespaces.filter (· ≠ e.path)

theorem nodup_tablePaths (e : Extension) : (tablePaths e).Nodup := by
  refine List.nodup_cons.mpr ⟨fun hmem => ?_, (Sequence.nodup_eraseDups _).filter _⟩
  have hne := List.of_mem_filter hmem
  exact of_decide_eq_true hne rfl

theorem home_mem_tablePaths (i : e.Position) : e.home i ∈ tablePaths e := by
  by_cases hown : e.home i = e.path
  · exact List.mem_cons.mpr (.inl hown)
  · refine List.mem_cons_of_mem _ (List.mem_filter.mpr ⟨?_, decide_eq_true hown⟩)
    unfold Extension.functionNamespaces
    rw [List.mem_eraseDups]
    exact List.mem_map_of_mem (List.getElem_mem _)

theorem functionNamespaces_eq (e : Extension) :
    e.functionNamespaces =
      (Sequence.firstBy e.home (List.finRange e.functions.length)).map e.home := by
  have hhomes : e.functions.map (·.name.path) =
      (List.finRange e.functions.length).map e.home := by
    conv_lhs => rw [← List.map_getElem_finRange e.functions, List.map_map]
    rfl
  unfold Extension.functionNamespaces
  rw [hhomes, Sequence.eraseDups_map]

theorem head?_rows_ofPath {i : e.Position}
    (h : i ∈ Sequence.firstBy e.home (List.finRange e.functions.length)) :
    (Sheet.ofPath e (e.home i)).rows.head? = some i :=
  List.head?_filter.trans ((Sequence.mem_firstBy_iff e.home).mp h)

theorem sortedLT_leaders (e : Extension) :
    (((e.functionNamespaces.filter (· ≠ e.path)).map (Sheet.ofPath e)).filterMap
      (·.rows.head?)).SortedLT := by
  have hleaders : ((e.functionNamespaces.filter (· ≠ e.path)).map (Sheet.ofPath e)).filterMap
      (·.rows.head?) =
      (Sequence.firstBy e.home (List.finRange e.functions.length)).filter
        fun i => e.home i ≠ e.path := by
    rw [functionNamespaces_eq, List.filter_map, List.filterMap_map, List.filterMap_map]
    conv_rhs => rw [← List.filterMap_some (l := List.filter _ _)]
    exact List.filterMap_congr fun i hi => head?_rows_ofPath (List.mem_filter.mp hi).1
  rw [hleaders]
  refine Sequence.sortedLT_of_sublist (List.sortedLT_finRange _) ?_
  exact List.filter_sublist.trans (Sequence.sublist_firstBy _ _)

theorem isDivision_tablePaths (e : Extension) :
    IsDivision (Sheet.ofPath e e.path)
      ((e.functionNamespaces.filter (· ≠ e.path)).map (Sheet.ofPath e)) where
  once := by
    show ((tablePaths e).map (Sheet.ofPath e) |>.flatMap (·.rows)).Perm _
    rw [List.flatMap_map, List.perm_ext_iff_of_nodup _ (List.nodup_finRange _)]
    · intro i
      rw [List.mem_flatMap, iff_true_right (List.mem_finRange i)]
      exact ⟨e.home i, home_mem_tablePaths i, Sheet.mem_rows_ofPath.mpr rfl⟩
    · rw [List.nodup_flatMap]
      refine ⟨fun path _ => (Sheet.sortedLT_rows_ofPath path).nodup, ?_⟩
      apply (nodup_tablePaths e).imp
      intro p q hne i hp hq
      exact hne ((Sheet.mem_rows_ofPath.mp hp).symm.trans (Sheet.mem_rows_ofPath.mp hq))
  home := by
    show ∀ s ∈ (tablePaths e).map (Sheet.ofPath e), _
    rw [List.forall_mem_map]
    exact fun path _ i hi => Sheet.mem_rows_ofPath.mp hi
  ordered := by
    show ∀ s ∈ (tablePaths e).map (Sheet.ofPath e), _
    rw [List.forall_mem_map]
    exact fun path _ => Sheet.sortedLT_rows_ofPath path
  own := rfl
  apart := by
    show (((tablePaths e).map (Sheet.ofPath e)).map (·.path)).Nodup
    rw [List.map_map]
    exact (List.map_id _).symm ▸ nodup_tablePaths e
  nonempty := by
    rw [List.forall_mem_map]
    intro path hpath
    have hmem := (List.mem_filter.mp hpath).1
    rw [functionNamespaces_eq] at hmem
    obtain ⟨i, -, rfl⟩ := List.mem_map.mp hmem
    exact List.ne_nil_of_mem (Sheet.mem_rows_ofPath.mpr rfl)
  leaders := sortedLT_leaders e

def Section.entryTable? : Section → Option EntryTable
  | table entries => some entries
  | _ => none

/-- The lines of the table in a text, and the empty one behind it. -/
def EntryTable.written (t : EntryTable) : List String :=
  Text.lines ("static const zend_function_entry " ++ t.name ++ "[] = \x7b") ++
    t.entries.flatMap (fun entry => Text.lines ("\t" ++ entry.text)) ++
    ["\tZEND_FE_END", "\x7d;", ""]

theorem written_table (t : EntryTable) : (Section.table t).written = t.written := by
  have hlines : (Section.table t).lines =
      ⟨0, "static const zend_function_entry " ++ t.name ++ "[] = \x7b"⟩ ::
        t.entries.map (fun entry => ⟨1, entry.text⟩) ++ [⟨1, "ZEND_FE_END"⟩, ⟨0, "\x7d;"⟩] := rfl
  have hlast : Text.lines (Text.Line.written ⟨1, "ZEND_FE_END"⟩) = ["\tZEND_FE_END"] :=
    Text.lines_of_not_mem (by decide)
  have hclose : Text.lines "\x7d;" = ["\x7d;"] := Text.lines_of_not_mem (by decide)
  rw [Section.written_eq, hlines]
  unfold EntryTable.written
  simp only [List.flatMap_append, List.flatMap_cons, List.flatMap_nil, List.flatMap_map,
    Text.Line.written_zero, hlast, hclose, List.append_assoc]
  rfl

theorem exists_sections_eq {options : Options} {ss : List Section}
    (h : sections options e = .ok ss) :
    ∃ first last, ss = first ++
        (functionTables e ++ e.classes.map EntryTable.ofClass).map .table ++ last ∧
      ∀ s ∈ first ++ last, s.entryTable? = none := by
  rw [sections_eq, map_eq_ok_iff] at h
  obtain ⟨rs, -, rfl⟩ := h
  refine ⟨leading options.hasBanner ++ (argInfos options.sharesArgInfo e).map .argInfo ++
    forward (handlers e), rs.map .routine, ?_, ?_⟩
  · unfold trailing
    simp only [List.map_append, List.map_map, List.append_assoc]
    rfl
  · have hleading : ∀ s ∈ leading options.hasBanner, s.entryTable? = none := by
      unfold leading
      split
      · exact List.forall_mem_singleton.mpr rfl
      · exact fun _ hs => absurd hs List.not_mem_nil
    have hforward : ∀ s ∈ forward (handlers e), s.entryTable? = none := by
      cases handlers e with
      | nil => exact fun _ hs => absurd hs List.not_mem_nil
      | cons _ _ => exact List.forall_mem_singleton.mpr rfl
    simp only [List.forall_mem_append, List.forall_mem_map]
    exact ⟨⟨⟨hleading, fun _ _ => rfl⟩, hforward⟩, fun _ _ => rfl⟩

theorem entryTables_sections {options : Options} {ss : List Section}
    (h : sections options e = .ok ss) :
    ss.filterMap Section.entryTable? = functionTables e ++ e.classes.map EntryTable.ofClass := by
  obtain ⟨first, last, rfl, hnone⟩ := exists_sections_eq h
  obtain ⟨hfirst, hlast⟩ := List.forall_mem_append.mp hnone
  rw [List.filterMap_append, List.filterMap_append, List.filterMap_eq_nil_iff.mpr hfirst,
    List.filterMap_eq_nil_iff.mpr hlast, List.filterMap_map, List.nil_append, List.append_nil]
  exact List.filterMap_some

/-- The functions are divided in exactly one way that gives every declaration one row, in the table
of its namespace, with rows in declaration order, the own namespace first and the others, none of
them without functions, in the order of their first functions. The tables of functions are this
division. In a header, and line by line in its text, only the method tables come after them. -/
theorem functionTables_divide (e : Extension) :
    ∃ own others,
      (∀ first rest, IsDivision (e := e) first rest ↔ first = own ∧ rest = others) ∧
      functionTables e = own.table :: others.map (·.table) ∧
      own.table.name = "ext_functions" ∧
      ∀ options text, emit options e = .ok text → ∃ ss, text = render ss ∧
        ss.filterMap Section.entryTable? =
          own.table :: others.map (·.table) ++ e.classes.map EntryTable.ofClass ∧
        ∃ first last, ss = first ++ (ss.filterMap Section.entryTable?).map .table ++ last ∧
          Text.lines text = first.flatMap (·.written) ++
            (own.table :: others.map (·.table) ++ e.classes.map EntryTable.ofClass).flatMap
              (·.written) ++ last.flatMap (·.written) := by
  have hdivision := isDivision_tablePaths e
  have htables : functionTables e = ((tablePaths e).map (Sheet.ofPath e)).map (·.table) := by
    unfold functionTables
    rw [List.map_map]
    exact List.map_congr_left fun path _ => (Sheet.table_ofPath path).symm
  refine ⟨_, _, fun first rest => ⟨fun h => h.unique hdivision, ?_⟩, htables, if_pos rfl, ?_⟩
  · rintro ⟨rfl, rfl⟩
    exact hdivision
  · intro options text hemit
    obtain ⟨ss, hss, rfl⟩ := map_eq_ok_iff.mp hemit
    obtain ⟨first, last, hsplit, hnone⟩ := exists_sections_eq hss
    have hentries := entryTables_sections hss
    have hne : ss ≠ [] := by
      rintro rfl
      exact List.cons_ne_nil _ _ hentries.symm
    refine ⟨ss, rfl, ?_, first, last, ?_, ?_⟩
    · rw [hentries, htables]
      rfl
    · rw [hentries, hsplit]
    · rw [lines_render hne, hsplit, List.flatMap_append, List.flatMap_append, List.flatMap_map]
      simp only [written_table, htables]
      rfl

def relays : Extension where
  path := ["Net"]
  functions := [{ name := ⟨["Net", "Tls"], "open"⟩ }, { name := ⟨[], "ping"⟩ },
    { name := ⟨["Net", "Tls"], "open"⟩ }, { name := ⟨[], "trace"⟩ }]
  classes := [{ name := ⟨["Net"], "Relay"⟩, methods := [{ name := "pass" }] }]

def relaysOwn : Sheet relays := ⟨["Net"], []⟩

def relaysOthers : List (Sheet relays) :=
  [⟨["Net", "Tls"], [⟨0, by decide⟩, ⟨2, by decide⟩]⟩, ⟨[], [⟨1, by decide⟩, ⟨3, by decide⟩]⟩]

theorem functionTables_divide_relays :
    IsDivision relaysOwn relaysOthers ∧
    functionTables relays = relaysOwn.table :: relaysOthers.map (·.table) ∧
    ∃ text ss, emit {} relays = .ok text ∧ text = render ss ∧
      (ss.filterMap Section.entryTable?).map (·.entries.length) = [0, 2, 2, 1] ∧
      ∀ s ∈ relaysOthers, ∀ line ∈ s.table.written, line ∈ Text.lines text := by
  have hdivision : IsDivision relaysOwn relaysOthers :=
    { once := by decide
      home := by decide
      ordered := by
        intro s hs
        exact List.Pairwise.sortedLT (by revert s; decide)
      own := rfl
      apart := by decide
      nonempty := by decide
      leaders := List.Pairwise.sortedLT (by decide) }
  obtain ⟨own, others, hunique, htables, -, hemitted⟩ := functionTables_divide relays
  obtain ⟨rfl, rfl⟩ := (hunique _ _).mp hdivision
  have hroutines : (routines relays.interner relays.classes).toOption.isSome := by
    decide +kernel
  refine ⟨hdivision, htables, ?_⟩
  cases hemit : emit {} relays with
  | ok text =>
    obtain ⟨ss, htext, hss, first, last, -, hlines⟩ := hemitted {} text hemit
    refine ⟨text, ss, rfl, htext, ?_, ?_⟩
    · rw [hss]
      rfl
    · intro s hs line hline
      rw [hlines]
      apply List.mem_append_left
      apply List.mem_append_right
      exact List.mem_flatMap.mpr ⟨s.table, List.mem_append_left _
        (List.mem_cons_of_mem _ (List.mem_map_of_mem hs)), hline⟩
  | error defect =>
    rw [(emit_eq_error_iff {} relays defect).mp hemit] at hroutines
    contradiction

end Header

end ExtensionHeader
