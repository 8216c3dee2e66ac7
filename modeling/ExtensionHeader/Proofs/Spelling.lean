import ExtensionHeader.Proofs.Naming
import Mathlib.Data.List.Forall2

/-! Names and the texts that spell them. A text may have separators before, between and behind the
segments of a name; the one that a name is written as has them only between. Without regard to case
the same holds, as folding neither makes separators nor takes them away. -/
namespace ExtensionHeader

/-! Texts that are equal up to ASCII case. -/

def SameLetter (c d : Char) : Prop :=
  c = d ∨ c.isUpper = true ∧ d.toNat = c.toNat + 32 ∨ d.isUpper = true ∧ c.toNat = d.toNat + 32

instance (c d : Char) : Decidable (SameLetter c d) := inferInstanceAs (Decidable (_ ∨ _ ∨ _))

def SameText (s t : String) : Prop := List.Forall₂ SameLetter s.toList t.toList

instance (s t : String) : Decidable (SameText s t) :=
  inferInstanceAs (Decidable (List.Forall₂ SameLetter s.toList t.toList))

theorem isUpper_iff (c : Char) : c.isUpper = true ↔ 65 ≤ c.toNat ∧ c.toNat ≤ 90 := by
  unfold Char.isUpper
  rw [decide_eq_true_iff, ge_iff_le, UInt32.le_iff_toNat_le, UInt32.le_iff_toNat_le]
  exact Iff.rfl

theorem toNat_toLower (c : Char) :
    c.toLower.toNat = if 65 ≤ c.toNat ∧ c.toNat ≤ 90 then c.toNat + 32 else c.toNat := by
  have hshift : ('a'.val - 'A'.val).toNat = 32 := rfl
  have hbounds := isUpper_iff c
  unfold Char.isUpper at hbounds
  rw [decide_eq_true_iff] at hbounds
  unfold Char.toLower
  split
  · rename_i hupper
    have hnat := hbounds.mp hupper
    rw [if_pos hnat]
    show (c.val + ('a'.val - 'A'.val)).toNat = c.val.toNat + 32
    change 65 ≤ c.val.toNat ∧ c.val.toNat ≤ 90 at hnat
    rw [UInt32.toNat_add, hshift]
    omega
  · rename_i hupper
    rw [if_neg fun hnat => hupper (hbounds.mpr hnat)]

theorem toLower_eq_toLower_iff (c d : Char) : c.toLower = d.toLower ↔ SameLetter c d := by
  unfold SameLetter
  rw [← Char.toNat_inj, ← Char.toNat_inj, toNat_toLower, toNat_toLower, isUpper_iff, isUpper_iff]
  split <;> split <;> omega

theorem toLower_eq_iff (s t : String) : s.toLower = t.toLower ↔ SameText s t := by
  unfold SameText
  rw [← String.toList_inj, toList_toLower, toList_toLower, ← List.forall₂_eq_eq_eq,
    List.forall₂_map_left_iff, List.forall₂_map_right_iff]
  simp only [toLower_eq_toLower_iff]

namespace QualifiedName

def IsSegment (s : String) : Prop := s ≠ "" ∧ separator ∉ s.toList

instance (s : String) : Decidable (IsSegment s) := inferInstanceAs (Decidable (_ ∧ _))

def Segmented (q : QualifiedName) : Prop := ∀ s ∈ q.path ++ [q.name], IsSegment s

instance (q : QualifiedName) : Decidable q.Segmented :=
  inferInstanceAs (Decidable (∀ s ∈ q.path ++ [q.name], IsSegment s))

/-- The text consists of the segments in order. Separators may stand anywhere around them, and
between two of them there is at least one. -/
inductive Spells : List Char → List String → Prop
  | nil : Spells [] []
  | gap {text : List Char} {segments : List String} :
    Spells text segments → Spells (separator :: text) segments
  | segment {s : String} {text : List Char} {segments : List String} : IsSegment s →
    (∀ c ∈ text.head?, c = separator) → Spells text segments →
    Spells (s.toList ++ text) (s :: segments)

theorem Spells.single {s : String} (h : IsSegment s) : Spells s.toList [s] := by
  simpa using Spells.segment h (by simp) .nil

theorem Spells.before {s : String} {text : List Char} {segments : List String} (h : IsSegment s)
    (hrest : Spells text segments) : Spells (s.toList ++ separator :: text) (s :: segments) :=
  .segment h (by simp) hrest.gap

theorem segments_separator {text : List Char} :
    segments (String.ofList (separator :: text)) = segments (String.ofList text) := by
  unfold segments
  rw [String.toList_ofList, String.toList_ofList, ← List.nil_append (separator :: text),
    List.splitOn_append_cons_self_of_not_mem List.not_mem_nil]
  rfl

theorem segments_append {s : String} {text : List Char} (h : IsSegment s)
    (hstop : ∀ c ∈ text.head?, c = separator) :
    segments (String.ofList (s.toList ++ text)) = s :: segments (String.ofList text) := by
  have hne : s.toList ≠ [] := fun hnil => h.1 (String.toList_eq_nil_iff.mp hnil)
  cases text with
  | nil =>
    unfold segments
    rw [String.toList_ofList, List.append_nil, List.splitOn_eq_singleton h.2]
    simp [hne]
  | cons c text =>
    obtain rfl : c = separator := hstop c rfl
    rw [segments_separator]
    unfold segments
    rw [String.toList_ofList, String.toList_ofList,
      List.splitOn_append_cons_self_of_not_mem h.2]
    simp [hne]

theorem Spells.segments_eq {text : List Char} {parts : List String} (h : Spells text parts) :
    segments (String.ofList text) = parts := by
  induction h with
  | nil => rfl
  | gap _ ih => rw [segments_separator, ih]
  | segment hsegment hstop _ ih => rw [segments_append hsegment hstop, ih]

theorem Spells.exists_cons {c : Char} {text : List Char} {parts : List String}
    (h : Spells text parts) (hc : c ≠ separator) : ∃ longer, Spells (c :: text) longer := by
  have hsingle : IsSegment (String.ofList [c]) :=
    ⟨by simp [← String.toList_inj], by simpa using hc.symm⟩
  cases h with
  | nil => exact ⟨_, by simpa using Spells.single hsingle⟩
  | gap h => exact ⟨_, by simpa using Spells.before hsingle h⟩
  | @segment s text segments hs hstop h =>
    have hlonger : IsSegment (String.ofList (c :: s.toList)) :=
      ⟨by simp [← String.toList_inj], by simpa using ⟨hc.symm, hs.2⟩⟩
    exact ⟨_, by simpa using Spells.segment hlonger hstop h⟩

theorem exists_spells (text : List Char) : ∃ parts, Spells text parts := by
  induction text with
  | nil => exact ⟨[], .nil⟩
  | cons c text ih =>
    obtain ⟨parts, hparts⟩ := ih
    by_cases hc : c = separator
    · exact ⟨parts, hc ▸ hparts.gap⟩
    · exact hparts.exists_cons hc

theorem Spells.isSegment {text : List Char} {parts : List String} (h : Spells text parts) :
    ∀ s ∈ parts, IsSegment s := by
  induction h with
  | nil => exact fun _ hs => absurd hs List.not_mem_nil
  | gap _ ih => exact ih
  | segment hsegment _ _ ih => exact List.forall_mem_cons.mpr ⟨hsegment, ih⟩

/-! Reading and writing. -/

theorem Segmented.parse_display {q : QualifiedName} (h : q.Segmented) : parse q.display = q := by
  have hsplit : q.display.toList.splitOn separator = (q.path ++ [q.name]).map String.toList :=
    splitOn_joined (fun s hs => (h s hs).2)
      (List.append_ne_nil_of_right_ne_nil _ (List.cons_ne_nil _ _))
  have hfilter : ((q.path ++ [q.name]).map String.toList).filter (· ≠ []) =
      (q.path ++ [q.name]).map String.toList := by
    rw [List.filter_eq_self]
    intro text htext
    obtain ⟨s, hs, rfl⟩ := List.mem_map.mp htext
    exact decide_eq_true fun hnil => (h s hs).1 (String.toList_eq_nil_iff.mp hnil)
  have hsegments : segments q.display = q.path ++ [q.name] := by
    unfold segments
    rw [hsplit, hfilter, List.map_map]
    exact List.map_id'' (fun _ => String.ofList_toList) _
  unfold parse
  rw [hsegments]
  simp only [List.dropLast_concat, List.getLastD_concat]

theorem Segmented.display_inj {q r : QualifiedName} (hq : q.Segmented) (hr : r.Segmented) :
    q.display = r.display ↔ q = r := by
  refine ⟨fun h => ?_, congrArg display⟩
  rw [← hq.parse_display, h, hr.parse_display]

theorem parse_cases (s : String) : parse s = ⟨[], ""⟩ ∨ (parse s).Segmented := by
  obtain ⟨parts, hparts⟩ := exists_spells s.toList
  have hsegments := hparts.segments_eq
  rw [String.ofList_toList] at hsegments
  unfold parse
  rw [hsegments]
  rcases List.eq_nil_or_concat' parts with rfl | ⟨path, name, rfl⟩
  · exact .inl rfl
  · right
    unfold Segmented
    simp only [List.dropLast_concat, List.getLastD_concat]
    exact hparts.isSegment

/-! Folding. -/

def lower (q : QualifiedName) : QualifiedName := ⟨q.path.map String.toLower, q.name.toLower⟩

theorem lower_eq_iff (q r : QualifiedName) :
    q.lower = r.lower ↔ List.Forall₂ SameText q.path r.path ∧ SameText q.name r.name := by
  unfold lower
  rw [QualifiedName.mk.injEq, toLower_eq_iff, ← List.forall₂_eq_eq_eq,
    List.forall₂_map_left_iff, List.forall₂_map_right_iff]
  simp only [toLower_eq_iff]

theorem toLower_eq_separator_iff (c : Char) : c.toLower = separator ↔ c = separator := by
  have hnat : separator.toNat = 92 := rfl
  rw [← Char.toNat_inj, ← Char.toNat_inj, toNat_toLower, hnat]
  split <;> omega

theorem map_intercalate (f : α → β) (between : List α) (parts : List (List α)) :
    (between.intercalate parts).map f = (between.map f).intercalate (parts.map (List.map f)) := by
  induction parts with
  | nil => rfl
  | cons part rest ih =>
    cases rest with
    | nil => simp
    | cons next rest =>
      rw [List.intercalate_cons_cons, List.map_append, List.map_append, ih]
      exact List.intercalate_cons_cons.symm

theorem folded_eq_display_lower (q : QualifiedName) : q.folded = q.lower.display := by
  have hseparator : [separator].map Char.toLower = [separator] := by decide
  have hparts : (q.path ++ [q.name]).map String.toLower = q.lower.path ++ [q.lower.name] :=
    List.map_append
  unfold folded display
  rw [← hparts, ← String.toList_inj, toList_toLower, toList_joined, toList_joined,
    map_intercalate, hseparator, List.map_map, List.map_map]
  congr 2
  funext s
  exact (toList_toLower s).symm

theorem IsSegment.toLower {s : String} (h : IsSegment s) : IsSegment s.toLower := by
  constructor
  · rw [ne_eq, ← String.toList_eq_nil_iff, toList_toLower, List.map_eq_nil_iff,
      String.toList_eq_nil_iff]
    exact h.1
  · rw [toList_toLower, List.mem_map]
    rintro ⟨c, hc, hlower⟩
    rw [toLower_eq_separator_iff] at hlower
    exact h.2 (hlower ▸ hc)

theorem Segmented.lower {q : QualifiedName} (h : q.Segmented) : q.lower.Segmented := by
  intro s hs
  obtain ⟨t, ht, rfl⟩ := List.mem_map.mp (List.map_append.symm ▸ hs :
    s ∈ (q.path ++ [q.name]).map String.toLower)
  exact (h t ht).toLower

theorem Segmented.folded_eq_iff {q r : QualifiedName} (hq : q.Segmented) (hr : r.Segmented) :
    q.folded = r.folded ↔ List.Forall₂ SameText q.path r.path ∧ SameText q.name r.name := by
  rw [folded_eq_display_lower, folded_eq_display_lower, hq.lower.display_inj hr.lower,
    lower_eq_iff]

/-- Every text spells segments, and all texts that spell the same segments are read as one name;
what the name is written as is read as the name again. A name whose parts are segments is told by
its text, and without regard to case it is told by its folded text: that of another one is the same
exactly if it has as many parts and they are equal in turn up to case. -/
theorem parse_display_round_trip :
    (∀ s : String, parse (parse s).display = parse s ∧ (∃ parts, Spells s.toList parts) ∧
      ∀ (t : String) (parts : List String), Spells s.toList parts → Spells t.toList parts →
        parse s = parse t) ∧
    (∀ q : QualifiedName, q.Segmented → parse q.display = q) ∧
    ∀ q r : QualifiedName, q.Segmented → r.Segmented →
      (q.folded = r.folded ↔ q.path.length = r.path.length ∧
        List.Forall₂ SameText q.path r.path ∧ SameText q.name r.name) := by
  refine ⟨fun s => ⟨?_, exists_spells s.toList, fun t parts hs ht => ?_⟩,
    fun q hq => hq.parse_display, fun q r hq hr => ?_⟩
  · rcases parse_cases s with h | h
    · rw [h]
      rfl
    · exact h.parse_display
  · have hs := hs.segments_eq
    have ht := ht.segments_eq
    rw [String.ofList_toList] at hs ht
    unfold parse
    rw [hs, ht]
  · rw [hq.folded_eq_iff hr]
    exact ⟨fun h => ⟨h.1.length_eq, h⟩, fun h => h.2⟩

def sayHello : QualifiedName := ⟨["Complex", "Nested"], "SayHello"⟩

theorem parse_display_round_trip_sayHello :
    parse "\\Complex\\\\Nested\\SayHello" = parse "Complex\\Nested\\SayHello" ∧
      parse sayHello.display = sayHello ∧
      sayHello.folded = (⟨["COMPLEX", "nested"], "sayHello"⟩ : QualifiedName).folded ∧
      sayHello.folded ≠ (⟨["Complex", "NestedSay"], "Hello"⟩ : QualifiedName).folded := by
  obtain ⟨hparse, hdisplay, hfolded⟩ := parse_display_round_trip
  have hnested : Spells ("Nested".toList ++ separator :: "SayHello".toList)
      ["Nested", "SayHello"] := .before (by decide) (.single (by decide))
  have hplain : Spells "Complex\\Nested\\SayHello".toList ["Complex", "Nested", "SayHello"] :=
    Spells.before (s := "Complex") (by decide) hnested
  have hspaced : Spells "\\Complex\\\\Nested\\SayHello".toList
      ["Complex", "Nested", "SayHello"] :=
    (Spells.before (s := "Complex") (by decide) hnested.gap).gap
  refine ⟨(hparse _).2.2 _ _ hspaced hplain, hdisplay sayHello (by decide), ?_, ?_⟩
  · rw [hfolded _ _ (by decide) (by decide)]
    decide
  · rw [ne_eq, hfolded _ _ (by decide) (by decide)]
    decide

end QualifiedName

end ExtensionHeader
