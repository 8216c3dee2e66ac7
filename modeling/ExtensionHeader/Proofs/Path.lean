import ExtensionHeader.FileTree
import Mathlib.Data.List.Basic

/-! The parent of a path starts where the path starts and leads through the same names but the last
one, whatever slashes and dots stand between and behind the names. -/
namespace ExtensionHeader

theorem Sequence.filter_dropWhile_not (p : α → Bool) (xs : List α) :
    (xs.dropWhile (!p ·)).filter p = xs.filter p := by
  induction xs with
  | nil => rfl
  | cons x rest ih =>
    by_cases hx : p x = true
    · rw [List.dropWhile_cons_of_neg (by simpa using hx)]
    · rw [List.dropWhile_cons_of_pos (by simpa using hx), List.filter_cons_of_neg hx, ih]

theorem Sequence.filter_tail_dropWhile_not (p : α → Bool) (xs : List α) :
    (xs.dropWhile (!p ·)).tail.filter p = (xs.filter p).tail := by
  induction xs with
  | nil => rfl
  | cons x rest ih =>
    by_cases hx : p x = true
    · rw [List.dropWhile_cons_of_neg (by simpa using hx), List.filter_cons_of_pos hx]
      rfl
    · rw [List.dropWhile_cons_of_pos (by simpa using hx), List.filter_cons_of_neg hx, ih]

theorem Sequence.not_mem_of_mem_splitOn [DecidableEq α] {d : α} {xs piece : List α}
    (h : piece ∈ xs.splitOn d) : d ∉ piece := by
  induction xs generalizing piece with
  | nil =>
    rw [List.splitOn_nil, List.mem_singleton] at h
    rw [h]
    exact List.not_mem_nil
  | cons x rest ih =>
    rw [List.splitOn_cons_eq_if_modifyHead] at h
    obtain ⟨first, others, hrest⟩ := List.exists_cons_of_ne_nil (List.splitOn_ne_nil d rest)
    rw [hrest] at h ih
    by_cases hx : x = d
    · rw [if_pos (beq_iff_eq.mpr hx)] at h
      rcases List.mem_cons.mp h with rfl | h
      · exact List.not_mem_nil
      · exact ih h
    · rw [if_neg (by simpa using hx), List.modifyHead_cons] at h
      rcases List.mem_cons.mp h with rfl | h
      · exact fun hmem => (List.mem_cons.mp hmem).elim (fun heq => hx heq.symm)
          (ih List.mem_cons_self)
      · exact ih (List.mem_cons_of_mem _ h)

theorem Sequence.intercalate_prefix (between : List α) {parts more : List (List α)}
    (h : parts <+: more) : between.intercalate parts <+: between.intercalate more := by
  induction parts generalizing more with
  | nil => exact List.nil_prefix
  | cons part rest ih =>
    obtain ⟨others, rfl⟩ := h
    have hrest := ih (List.prefix_append rest others)
    cases rest with
    | nil =>
      cases others with
      | nil => exact List.prefix_refl _
      | cons next others =>
        rw [List.intercalate_singleton, List.singleton_append, List.intercalate_cons_cons,
          List.append_assoc]
        exact List.prefix_append _ _
    | cons next rest =>
      rw [List.cons_append, List.cons_append, List.intercalate_cons_cons,
        List.intercalate_cons_cons, List.prefix_append_right_inj]
      exact hrest

namespace Path

variable (p : Path)

def outer : List (List Char) :=
  ((p.pieces.reverse.dropWhile (!isName ·)).tail.dropWhile (!isName ·)).reverse

theorem parent_eq : p.parent = ⟨"/".intercalate (p.outer.map String.ofList)⟩ := rfl

theorem outer_prefix_pieces : p.outer <+: p.pieces := by
  have hsuffix := (List.dropWhile_suffix (!isName ·)).trans
    ((List.tail_suffix _).trans (List.dropWhile_suffix (l := p.pieces.reverse) (!isName ·)))
  rw [← List.reverse_suffix]
  unfold outer
  rwa [List.reverse_reverse]

theorem filter_outer : p.outer.filter isName = (p.pieces.filter isName).dropLast := by
  unfold outer
  rw [List.filter_reverse, Sequence.filter_dropWhile_not, Sequence.filter_tail_dropWhile_not,
    List.filter_reverse, List.tail_reverse, List.reverse_reverse]

theorem toList_text_parent : p.parent.text.toList = "/".toList.intercalate p.outer := by
  rw [parent_eq, String.toList_intercalate, List.map_map]
  exact congrArg _ (List.map_id'' (fun _ => String.toList_ofList) _)

theorem pieces_parent (h : p.outer ≠ []) : p.parent.pieces = p.outer := by
  unfold pieces
  rw [toList_text_parent]
  apply List.splitOn_intercalate _ _ h
  intro piece hpiece
  exact Sequence.not_mem_of_mem_splitOn (p.outer_prefix_pieces.subset hpiece)

theorem text_parent_prefix : p.parent.text.toList <+: p.text.toList := by
  have htext : "/".toList.intercalate p.pieces = p.text.toList := List.intercalate_splitOn '/'
  rw [toList_text_parent, ← htext]
  exact Sequence.intercalate_prefix _ p.outer_prefix_pieces

theorem isUsable_parent (h : p.isUsable = true) : p.parent.isUsable = true := by
  obtain ⟨more, hmore⟩ := p.text_parent_prefix
  have htext : p.text = p.parent.text ++ String.ofList more := by
    rw [← String.toList_inj, String.toList_append, String.toList_ofList, hmore]
  unfold isUsable at h ⊢
  rw [String.contains_char_eq, htext, String.toList_append, String.utf8ByteSize_append] at h
  rw [String.contains_char_eq]
  simp only [Bool.and_eq_true, Bool.not_eq_true', decide_eq_false_iff_not, decide_eq_true_eq,
    List.mem_append, not_or] at h ⊢
  exact ⟨h.1.1, by omega⟩

theorem names_parent : p.parent.names = p.names.dropLast := by
  have hnames : p.names.dropLast = (p.outer.filter isName).map String.ofList := by
    unfold names
    rw [filter_outer, List.map_dropLast]
  rw [hnames]
  by_cases h : p.outer = []
  · rw [parent_eq, h]
    rfl
  · unfold names
    rw [pieces_parent p h]

theorem isAbsolute_iff : p.isAbsolute = true ↔ p.pieces.head? = some [] ∧ p.pieces ≠ [[]] := by
  unfold isAbsolute pieces
  rw [decide_eq_true_iff]
  cases p.text.toList with
  | nil => simp
  | cons c rest =>
    obtain ⟨first, others, hrest⟩ := List.exists_cons_of_ne_nil (List.splitOn_ne_nil '/' rest)
    rw [List.splitOn_cons_eq_if_modifyHead, hrest]
    by_cases hc : c = '/'
    · simp [hc]
    · simp [hc]

theorem isAbsolute_parent (h : p.parent.names ≠ []) : p.parent.isAbsolute = p.isAbsolute := by
  have hnames : p.outer.filter isName ≠ [] := by
    intro hnil
    have hempty : p.parent.names = [] := by
      rw [names_parent]
      unfold names
      rw [← List.map_dropLast, ← filter_outer, hnil, List.map_nil]
    exact h hempty
  have hpieces : p.outer ≠ [] := fun hnil => hnames (by rw [hnil, List.filter_nil])
  have hlone : p.outer ≠ [[]] := fun hnil => hnames (by rw [hnil]; rfl)
  obtain ⟨more, hmore⟩ := p.outer_prefix_pieces
  obtain ⟨first, others, houter⟩ := List.exists_cons_of_ne_nil hpieces
  rw [Bool.eq_iff_iff, isAbsolute_iff, isAbsolute_iff, pieces_parent p hpieces, ← hmore, houter]
  rw [houter] at hlone
  refine and_congr (by simp) (iff_of_true hlone fun hpath => ?_)
  obtain ⟨rfl, hothers⟩ := List.cons.inj hpath
  rw [List.append_eq_nil_iff.mp hothers |>.1] at hlone
  exact hlone rfl

theorem isName_of_getLast?_outer {piece : List Char} (h : p.outer.getLast? = some piece) :
    isName piece = true := by
  have hstop := List.head?_dropWhile_not (!isName ·)
    (p.pieces.reverse.dropWhile (!isName ·)).tail
  unfold outer at h
  rw [List.getLast?_reverse] at h
  rw [h] at hstop
  simpa using hstop

theorem endsInDot_parent : p.parent.endsInDot = false := by
  unfold endsInDot
  rw [decide_eq_false_iff_not]
  by_cases h : p.outer = []
  · rw [parent_eq, h]
    decide
  · have hend := List.getLast?_eq_some_getLast h
    have hname := p.isName_of_getLast?_outer hend
    generalize p.outer.getLast h = last at hend hname
    obtain ⟨front, houter⟩ := List.getLast?_eq_some_iff.mp hend
    have hlast : last ≠ [] ∧ last ≠ ['.'] := by simpa [isName] using hname
    rw [pieces_parent p h, houter, List.filter_append,
      List.filter_cons_of_pos (by simpa using hlast.1)]
    simpa using hlast.2

/-- The path may be that of a file: it is usable, as are its names, and the last one is neither left
behind by a slash or a dot nor leads back. -/
structure NamesFile : Prop where
  usable : p.isUsable = true
  file : p.namesDirectory = false
  last : ∃ name, p.names.getLast? = some name ∧ name ≠ ".."
  named : ∀ name ∈ p.names, isNameUsable name = true

theorem namesFile_iff : p.NamesFile ↔
    ('\x00' ∉ p.text.toList ∧ p.text.utf8ByteSize < 4096) ∧ p.namesDirectory = false ∧
      p.names.getLast?.any (· ≠ "..") = true ∧ ∀ name ∈ p.names, isNameUsable name = true := by
  have husable : p.isUsable = true ↔ '\x00' ∉ p.text.toList ∧ p.text.utf8ByteSize < 4096 := by
    unfold isUsable
    rw [String.contains_char_eq]
    simp
  have hlast : (∃ name, p.names.getLast? = some name ∧ name ≠ "..") ↔
      p.names.getLast?.any (· ≠ "..") = true := by
    rw [Option.any_eq_true]
    simp
  rw [← husable, ← hlast]
  exact ⟨fun h => ⟨h.usable, h.file, h.last, h.named⟩, fun h => ⟨h.1, h.2.1, h.2.2.1, h.2.2.2⟩⟩

instance : Decidable p.NamesFile := decidable_of_iff _ p.namesFile_iff.symm

end Path

theorem FileTree.start_parent (t : FileTree) {p : Path} (h : p.parent.names ≠ []) :
    t.start p.parent = t.start p := by
  unfold start
  rw [Path.isAbsolute_parent p h]

end ExtensionHeader
