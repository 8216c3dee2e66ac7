import ExtensionHeader.Proofs.Acceptance
import Mathlib.Data.List.Nodup

/-! The texts by which claims tell their declarations apart. Valid names hold neither a separator
nor a colon, so such a text gives back the parts it is made of. -/
namespace ExtensionHeader

theorem toList_toLower (s : String) : s.toLower.toList = s.toList.map Char.toLower :=
  String.toList_map

namespace Identifier

theorem isContinuation_of_isStart {c : Char} (h : isStart c = true) : isContinuation c = true := by
  unfold isStart at h
  unfold isContinuation Char.isAlphanum
  rw [Bool.or_eq_true] at h ⊢
  rw [Bool.or_eq_true]
  exact h.imp_left Or.inl

theorem isContinuation_of_mem {s : String} (h : isValid s = true) {c : Char}
    (hc : c ∈ s.toList) : isContinuation c = true := by
  unfold isValid at h
  split at h
  · contradiction
  · rename_i first rest hs
    rw [Bool.and_eq_true, List.all_eq_true] at h
    rw [hs] at hc
    rcases List.mem_cons.mp hc with rfl | hc
    · exact isContinuation_of_isStart h.1
    · exact h.2 c hc

theorem toList_ne_nil_of_isValid {s : String} (h : isValid s = true) : s.toList ≠ [] := by
  intro hs
  simp [isValid, hs] at h

theorem mem_ofName {q : QualifiedName} {s : String} {c : Char} (hs : s ∈ q.path ++ [q.name])
    (hc : c ∈ s.toList) : c ∈ (ofName q).toList := by
  unfold ofName
  rw [String.toList_append, String.toList_join, List.mem_append]
  rcases List.mem_append.mp hs with hs | hs
  · left
    rw [List.mem_flatMap]
    refine ⟨s ++ "_", List.mem_map_of_mem hs, ?_⟩
    rw [String.toList_append]
    exact List.mem_append_left _ hc
  · right
    rwa [← List.mem_singleton.mp hs]

theorem of_mem_ofName {q : QualifiedName} {c : Char} (h : c ∈ (ofName q).toList) :
    c = '_' ∨ ∃ s ∈ q.path ++ [q.name], c ∈ s.toList := by
  unfold ofName at h
  rw [String.toList_append, String.toList_join, List.mem_append, List.mem_flatMap] at h
  rcases h with ⟨t, ht, hc⟩ | h
  · obtain ⟨s, hs, rfl⟩ := List.mem_map.mp ht
    rw [String.toList_append, List.mem_append] at hc
    rcases hc with hc | hc
    · exact .inr ⟨s, List.mem_append_left _ hs, hc⟩
    · exact .inl (List.mem_singleton.mp hc)
  · exact .inr ⟨q.name, List.mem_append_right _ List.mem_cons_self, h⟩

theorem eq_colon_of_toLower {c : Char} (h : c.toLower = ':') : c = ':' := by
  unfold Char.toLower at h
  split at h
  · rename_i hupper
    have hval : c.val + ('a'.val - 'A'.val) = ':'.val := congrArg Char.val h
    have hnat := congrArg UInt32.toNat hval
    have hfirst : ('A'.val).toNat ≤ c.val.toNat := UInt32.le_iff_toNat_le.mp hupper.1
    have hlast : c.val.toNat ≤ ('Z'.val).toNat := UInt32.le_iff_toNat_le.mp hupper.2
    rw [UInt32.toNat_add] at hnat
    have hA : ('A'.val).toNat = 65 := rfl
    have hZ : ('Z'.val).toNat = 90 := rfl
    have hshift : ('a'.val - 'A'.val).toNat = 32 := rfl
    have hcolon : (':'.val).toNat = 58 := rfl
    omega
  · exact h

end Identifier

namespace QualifiedName

theorem toList_joined (path : List String) :
    (joined path).toList = [separator].intercalate (path.map String.toList) := by
  unfold joined
  rw [String.toList_intercalate, String.toList_singleton]

theorem mem_intercalate {separator : Char} {path : List String} {c : Char}
    (h : c ∈ ((String.singleton separator).intercalate path).toList) :
    c = separator ∨ ∃ s ∈ path, c ∈ s.toList := by
  rw [String.toList_intercalate, String.toList_singleton] at h
  induction path with
  | nil => exact absurd h List.not_mem_nil
  | cons s rest ih =>
    cases rest with
    | nil =>
      rw [List.map_cons, List.map_nil, List.intercalate_singleton] at h
      exact .inr ⟨s, List.mem_cons_self, h⟩
    | cons t rest =>
      rw [List.map_cons, List.map_cons, List.intercalate_cons_cons, List.mem_append,
        List.mem_append, ← List.map_cons] at h
      rcases h with (h | h) | h
      · exact .inr ⟨s, List.mem_cons_self, h⟩
      · exact .inl (List.mem_singleton.mp h)
      · refine (ih h).imp_right ?_
        rintro ⟨u, hu, hc⟩
        exact ⟨u, List.mem_cons_of_mem s hu, hc⟩

theorem mem_joined {path : List String} {c : Char} (h : c ∈ (joined path).toList) :
    c = separator ∨ ∃ s ∈ path, c ∈ s.toList :=
  mem_intercalate h

theorem splitOn_joined {path : List String} (h : ∀ s ∈ path, separator ∉ s.toList)
    (hpath : path ≠ []) : (joined path).toList.splitOn separator = path.map String.toList := by
  rw [toList_joined]
  apply List.splitOn_intercalate
  · exact List.forall_mem_map.mpr h
  · intro hnil
    exact hpath (List.map_eq_nil_iff.mp hnil)

theorem separator_not_mem {path : List String} (h : ∀ s ∈ path, Identifier.isValid s = true) :
    ∀ s ∈ path, separator ∉ s.toList := by
  intro s hs hmem
  have hcontinuation := Identifier.isContinuation_of_mem (h s hs) hmem
  contradiction

theorem joined_ne_empty {path : List String} (h : ∀ s ∈ path, Identifier.isValid s = true)
    (hpath : path ≠ []) : joined path ≠ "" := by
  intro hempty
  have hsplit := splitOn_joined (separator_not_mem h) hpath
  rw [hempty] at hsplit
  have hmem : [] ∈ path.map String.toList := hsplit ▸ List.mem_cons_self
  obtain ⟨s, hs, hnil⟩ := List.mem_map.mp hmem
  exact Identifier.toList_ne_nil_of_isValid (h s hs) hnil

theorem joined_inj {p q : List String} (hp : ∀ s ∈ p, Identifier.isValid s = true)
    (hq : ∀ s ∈ q, Identifier.isValid s = true) (h : joined p = joined q) : p = q := by
  by_cases hpnil : p = []
  · subst hpnil
    by_contra hqnil
    exact joined_ne_empty hq (Ne.symm hqnil) h.symm
  · by_cases hqnil : q = []
    · subst hqnil
      exact absurd h (joined_ne_empty hp hpnil)
    · have hlists : p.map String.toList = q.map String.toList := by
        rw [← splitOn_joined (separator_not_mem hp) hpnil, h,
          splitOn_joined (separator_not_mem hq) hqnil]
      apply List.map_injective_iff.mpr _ hlists
      intro s t hst
      exact String.toList_inj.mp hst

end QualifiedName

namespace Identifier

theorem colon_not_mem {s : String} (h : isValid s = true) : ':' ∉ s.toList := by
  intro hmem
  have hcontinuation := isContinuation_of_mem h hmem
  contradiction

theorem colon_not_mem_toLower {s : String} (h : ':' ∉ s.toList) : ':' ∉ s.toLower.toList := by
  intro hmem
  rw [toList_toLower] at hmem
  obtain ⟨c, hc, hlower⟩ := List.mem_map.mp hmem
  rw [eq_colon_of_toLower hlower] at hc
  exact h hc

end Identifier

theorem QualifiedName.IsValid.colon_not_mem_folded {q : QualifiedName} (h : q.IsValid) :
    ':' ∉ q.folded.toList := by
  apply Identifier.colon_not_mem_toLower
  intro hmem
  rcases QualifiedName.mem_joined hmem with hseparator | ⟨s, hs, hc⟩
  · contradiction
  · exact Identifier.colon_not_mem (h s hs) hc

theorem QualifiedName.IsValid.isContinuation_of_mem_ofName {q : QualifiedName} (h : q.IsValid)
    {c : Char} (hc : c ∈ (Identifier.ofName q).toList) : Identifier.isContinuation c = true := by
  rcases Identifier.of_mem_ofName hc with rfl | ⟨s, hs, hc⟩
  · decide
  · exact Identifier.isContinuation_of_mem (h s hs) hc

end ExtensionHeader
