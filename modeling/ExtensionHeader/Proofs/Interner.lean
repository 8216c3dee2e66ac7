import ExtensionHeader.Interner
import ExtensionHeader.Proofs.Sequence
import Mathlib.Data.List.Basic

/-! The strings of an interner are those it was given, each once and in the order in which they were
first given, and each one is found again under the symbol that it was given. -/
namespace ExtensionHeader.Interner

theorem isSome_get?_iff (t : Interner) (s : String) : (t.get? s).isSome ↔ s ∈ t.strings := by
  unfold get?
  rw [Option.isSome_map, List.isSome_idxOf?]

theorem get?_eq_some_iff (t : Interner) (s : String) (symbol : Symbol) :
    t.get? s = some symbol ↔
      ∃ i, t.strings.idxOf? s = some i ∧ symbol = ⟨UInt32.ofNat i⟩ := by
  unfold get?
  rw [Option.map_eq_some_iff]
  simp only [eq_comm]

/-- Positions wrap around in a table of more than `UInt32.size` strings, but lead to some string. -/
theorem isSome_resolve?_of_get? {t : Interner} {s : String} {symbol : Symbol}
    (h : t.get? s = some symbol) : (t.resolve? symbol).isSome := by
  obtain ⟨i, hi, rfl⟩ := (get?_eq_some_iff t s symbol).mp h
  obtain ⟨hlt, -, -⟩ := List.idxOf?_eq_some_iff.mp hi
  have hword : (UInt32.ofNat i).toNat < t.strings.length := by
    rw [UInt32.toNat_ofNat']
    omega
  unfold resolve?
  rw [List.getElem?_eq_getElem hword]
  rfl

theorem resolve?_of_get? {t : Interner} {s : String} {symbol : Symbol}
    (h : t.get? s = some symbol) (small : t.size ≤ UInt32.size) : t.resolve? symbol = some s := by
  obtain ⟨i, hi, rfl⟩ := (get?_eq_some_iff t s symbol).mp h
  obtain ⟨hlt, hs, -⟩ := List.idxOf?_eq_some_iff.mp hi
  have hword : (UInt32.ofNat i).toNat = i := by
    rw [UInt32.toNat_ofNat']
    exact Nat.mod_eq_of_lt (Nat.lt_of_lt_of_le hlt small)
  unfold resolve?
  rw [hword, List.getElem?_eq_getElem hlt, hs]

theorem strings_intern (t : Interner) (s : String) :
    (t.intern s).1.strings = if s ∈ t.strings then t.strings else t.strings ++ [s] := by
  have h := isSome_get?_iff t s
  unfold intern
  cases hg : t.get? s <;> simp_all

theorem mem_strings_internAll (t : Interner) (texts : List String) (s : String) :
    s ∈ (t.internAll texts).strings ↔ s ∈ t.strings ∨ s ∈ texts := by
  induction texts generalizing t with
  | nil => simp
  | cons first rest ih =>
    rw [internAll_cons, ih, strings_intern, List.mem_cons]
    by_cases hf : first ∈ t.strings
    · rw [if_pos hf]
      constructor
      · exact Or.imp_right Or.inr
      · rintro (h | rfl | h)
        · exact .inl h
        · exact .inl hf
        · exact .inr h
    · rw [if_neg hf, List.mem_append, List.mem_singleton, or_assoc]

theorem mem_strings_ofList (texts : List String) (s : String) :
    s ∈ (ofList texts).strings ↔ s ∈ texts := by
  unfold ofList
  rw [mem_strings_internAll]
  simp [empty]

theorem nodup_strings_internAll {t : Interner} (h : t.strings.Nodup) (texts : List String) :
    (t.internAll texts).strings.Nodup := by
  induction texts generalizing t with
  | nil => exact h
  | cons first rest ih =>
    rw [internAll_cons]
    apply ih
    rw [strings_intern]
    by_cases hf : first ∈ t.strings
    · rwa [if_pos hf]
    · rw [if_neg hf, List.nodup_append]
      refine ⟨h, List.nodup_singleton first, ?_⟩
      rintro s hs _ hfirst rfl
      exact hf (List.mem_singleton.mp hfirst ▸ hs)

theorem nodup_strings_ofList (texts : List String) : (ofList texts).strings.Nodup :=
  nodup_strings_internAll List.nodup_nil texts

theorem strings_internAll {t : Interner} (h : t.strings.Nodup) (texts : List String) :
    (t.internAll texts).strings = (t.strings ++ texts).eraseDups := by
  induction texts generalizing t with
  | nil =>
    rw [internAll_nil, List.append_nil, Sequence.eraseDups_eq_firstBy,
      Sequence.firstBy_eq_self id (by rwa [List.map_id])]
  | cons first rest ih =>
    -- The induction is over tables without repetitions, and one more text keeps it so.
    have hnodup := nodup_strings_internAll h [first]
    rw [internAll_cons, internAll_nil] at hnodup
    rw [internAll_cons, ih hnodup, strings_intern]
    by_cases hf : first ∈ t.strings
    · have hdrop : ¬ ∀ s ∈ t.strings, s ≠ first := fun hne => hne first hf rfl
      rw [if_pos hf]
      simp only [Sequence.eraseDups_eq_firstBy, Sequence.firstBy_append, id_eq]
      rw [List.filter_cons_of_neg (by simpa using hdrop)]
    · rw [if_neg hf, List.append_assoc, List.singleton_append]

theorem strings_ofList (texts : List String) : (ofList texts).strings = texts.eraseDups :=
  strings_internAll List.nodup_nil texts

theorem get?_intern_of_some {t : Interner} {s : String} {symbol : Symbol}
    (h : t.get? s = some symbol) (other : String) : (t.intern other).1.get? s = some symbol := by
  obtain ⟨i, hi, rfl⟩ := (get?_eq_some_iff t s symbol).mp h
  rw [get?_eq_some_iff]
  refine ⟨i, ?_, rfl⟩
  rw [strings_intern]
  by_cases hmem : other ∈ t.strings
  · rwa [if_pos hmem]
  · rw [if_neg hmem]
    unfold List.idxOf? at hi ⊢
    rw [List.findIdx?_append, hi, Option.some_or]

theorem get?_internAll_of_some {t : Interner} {s : String} {symbol : Symbol}
    (h : t.get? s = some symbol) (texts : List String) :
    (t.internAll texts).get? s = some symbol := by
  induction texts generalizing t with
  | nil => exact h
  | cons first rest ih => exact ih (get?_intern_of_some h first)

theorem get?_intern_self (t : Interner) (s : String) :
    (t.intern s).1.get? s = some (t.intern s).2 := by
  unfold intern
  cases hg : t.get? s with
  | some symbol => exact hg
  | none =>
    have hnew : t.strings.idxOf? s = none := by
      unfold get? at hg
      rwa [Option.map_eq_none_iff] at hg
    have hlast : (t.strings ++ [s]).idxOf? s = some t.size := by
      unfold List.idxOf? at hnew ⊢
      rw [List.findIdx?_append, hnew, Option.none_or]
      simp [size]
    exact (get?_eq_some_iff _ _ _).mpr ⟨t.size, hlast, rfl⟩

def give (t : Interner) : List String → Interner × List Symbol
  | [] => (t, [])
  | s :: rest =>
    let (next, symbol) := t.intern s
    let (last, symbols) := next.give rest
    (last, symbol :: symbols)

theorem fst_give (t : Interner) (texts : List String) :
    (t.give texts).1 = t.internAll texts := by
  induction texts generalizing t with
  | nil => rfl
  | cons first rest ih => exact ih (t.intern first).1

theorem snd_give (t : Interner) (texts : List String) :
    (t.give texts).2.map some = texts.map (t.internAll texts).get? := by
  induction texts generalizing t with
  | nil => rfl
  | cons first rest ih =>
    have hfirst := get?_internAll_of_some (get?_intern_self t first) rest
    have hrest := ih (t.intern first).1
    simp only [give, List.map_cons, internAll_cons]
    rw [hfirst, hrest]

/-- The order in which texts are given decides only their symbols. -/
theorem strings_ofList_perm {texts others : List String} (h : texts.Perm others) :
    (ofList texts).strings.Perm (ofList others).strings := by
  rw [List.perm_ext_iff_of_nodup (nodup_strings_ofList texts) (nodup_strings_ofList others)]
  intro s
  rw [mem_strings_ofList, mem_strings_ofList, h.mem_iff]

end ExtensionHeader.Interner
