import ExtensionHeader.Proofs.Interner

/-! Symbols number the distinct texts that a table is given, in the order in which they are first
given. A table with an index keeps a map from texts to symbols beside the texts in order; it answers
as the interner does, so that its two parts stay inverse to each other whatever texts are given. -/
namespace ExtensionHeader

theorem Sequence.pairwise_idxOf_eraseDups {α : Type*} [DecidableEq α] (xs : List α) :
    xs.eraseDups.Pairwise (xs.idxOf · < xs.idxOf ·) := by
  simp only [eraseDups_eq_firstBy]
  induction xs using List.reverseRecOn with
  | nil => exact List.Pairwise.nil
  | append_singleton xs x ih =>
    have hold : (firstBy id xs).Pairwise ((xs ++ [x]).idxOf · < (xs ++ [x]).idxOf ·) := by
      refine ih.imp_of_mem fun {a b} ha hb hlt => ?_
      rwa [List.idxOf_append_of_mem (mem_of_mem_firstBy ha),
        List.idxOf_append_of_mem (mem_of_mem_firstBy hb)]
    rw [firstBy_concat]
    split
    · exact hold
    · rename_i hnew
      have hfresh : x ∉ xs := by
        intro hx
        obtain ⟨y, hy, hkey⟩ := exists_mem_firstBy id hx
        exact hnew (List.any_eq_true.mpr ⟨y, hy, decide_eq_true hkey⟩)
      rw [List.pairwise_append]
      refine ⟨hold, List.pairwise_singleton _ _, fun a ha b hb => ?_⟩
      have hmem := mem_of_mem_firstBy ha
      rw [List.mem_singleton.mp hb, List.idxOf_append_of_mem hmem,
        List.idxOf_append_of_notMem hfresh, List.idxOf_cons_self]
      exact List.idxOf_lt_length_of_mem hmem

namespace Interner

theorem get?_intern (t : Interner) (s other : String) :
    (t.intern s).1.get? other =
      if s = other then some (t.intern s).2 else t.get? other := by
  by_cases heq : s = other
  · rw [if_pos heq, ← heq, get?_intern_self]
  · rw [if_neg heq]
    unfold get?
    rw [strings_intern]
    split
    · rfl
    · have hne : [s].idxOf? other = none := by simp [List.idxOf?_cons, heq]
      unfold List.idxOf? at hne ⊢
      rw [List.findIdx?_append, hne, Option.map_none, Option.or_none]

theorem size_le_internAll (t : Interner) (texts : List String) :
    t.size ≤ (t.internAll texts).size := by
  induction texts generalizing t with
  | nil => exact Nat.le_refl _
  | cons s rest ih =>
    have hstep : t.size ≤ (t.intern s).1.size := by
      unfold size
      rw [strings_intern]
      split
      · exact Nat.le_refl _
      · exact (List.sublist_append_left _ _).length_le
    exact Nat.le_trans hstep (ih _)

theorem give_append (t : Interner) (texts later : List String) :
    t.give (texts ++ later) =
      (((t.give texts).1.give later).1, (t.give texts).2 ++ ((t.give texts).1.give later).2) := by
  induction texts generalizing t with
  | nil => rfl
  | cons s rest ih =>
    rw [List.cons_append]
    simp only [give]
    rw [ih]
    rfl

section distinct

variable {t : Interner} (distinct : t.strings.Nodup) (small : t.size ≤ UInt32.size)

include distinct small

theorem get?_eq_some_iff_getElem? (s : String) (symbol : Symbol) :
    t.get? s = some symbol ↔ t.strings[symbol.index.toNat]? = some s := by
  constructor
  · exact fun h => resolve?_of_get? h small
  · intro h
    obtain ⟨hlt, hs⟩ := List.getElem?_eq_some_iff.mp h
    have hposition : t.strings.idxOf? s = some symbol.index.toNat := by
      refine List.idxOf?_eq_some_iff.mpr ⟨hlt, hs, fun j hj heq => ?_⟩
      exact absurd ((distinct.getElem_inj_iff).mp (heq.trans hs.symm)) (Nat.ne_of_lt hj)
    refine (get?_eq_some_iff t s symbol).mpr ⟨_, hposition, ?_⟩
    rw [UInt32.ofNat_toNat]

end distinct

/-- The table after `texts` have been given to it, when they were given `symbols`. -/
structure Numbers (t : Interner) (texts : List String) (symbols : List Symbol) : Prop where
  distinct : t.strings.Nodup
  mem_iff : ∀ s, s ∈ t.strings ↔ s ∈ texts
  ordered : t.strings.Pairwise (texts.idxOf · < texts.idxOf ·)
  get?_iff : ∀ s symbol, t.get? s = some symbol ↔ t.strings[symbol.index.toNat]? = some s
  resolved : symbols.map t.resolve? = texts.map some
  eq_iff : ∀ p ∈ texts.zip symbols, ∀ q ∈ texts.zip symbols, p.1 = q.1 ↔ p.2 = q.2

theorem get?_of_mem_zip_give {t : Interner} {texts : List String} {p : String × Symbol}
    (h : p ∈ texts.zip (t.give texts).2) : (t.internAll texts).get? p.1 = some p.2 := by
  obtain ⟨i, hi⟩ := List.mem_iff_getElem?.mp h
  obtain ⟨htext, hsymbol⟩ := List.getElem?_zip_eq_some.mp hi
  have hgiven := congrArg (·[i]?) (t.snd_give texts)
  simp only [List.getElem?_map, htext, hsymbol, Option.map_some] at hgiven
  exact (Option.some.inj hgiven).symm

theorem map_resolve?_give {t : Interner} {texts later : List String}
    (small : ((t.give texts).1.internAll later).size ≤ UInt32.size) :
    (t.give texts).2.map ((t.give texts).1.internAll later).resolve? = texts.map some := by
  have hfind : ∀ s ∈ texts, ∃ symbol, (t.internAll texts).get? s = some symbol := by
    intro s hs
    rw [← Option.isSome_iff_exists, isSome_get?_iff, mem_strings_internAll]
    exact .inr hs
  have hgiven := congrArg (List.map (·.bind ((t.give texts).1.internAll later).resolve?))
    (t.snd_give texts)
  rw [List.map_map, List.map_map] at hgiven
  calc (t.give texts).2.map ((t.give texts).1.internAll later).resolve?
      = texts.map fun s => ((t.internAll texts).get? s).bind
          ((t.give texts).1.internAll later).resolve? := hgiven
    _ = texts.map some := by
      refine List.map_congr_left fun s hs => ?_
      obtain ⟨symbol, hsymbol⟩ := hfind s hs
      rw [hsymbol, Option.bind_some]
      rw [← fst_give] at hsymbol
      exact resolve?_of_get? (get?_internAll_of_some hsymbol later) small

theorem map_resolve?_fst_give {t : Interner} {texts : List String}
    (small : (t.give texts).1.size ≤ UInt32.size) :
    (t.give texts).2.map (t.give texts).1.resolve? = texts.map some :=
  map_resolve?_give (show ((t.give texts).1.internAll []).size ≤ UInt32.size from small)

theorem numbers_give {texts : List String} (small : texts.eraseDups.length ≤ UInt32.size) :
    Numbers (empty.give texts).1 texts (empty.give texts).2 := by
  have hstrings : (empty.give texts).1.strings = texts.eraseDups := by
    rw [fst_give]
    exact strings_ofList texts
  have hsmall : (empty.give texts).1.size ≤ UInt32.size := by
    unfold size
    rwa [hstrings]
  have hdistinct : (empty.give texts).1.strings.Nodup := by
    rw [fst_give]
    exact nodup_strings_ofList texts
  refine ⟨hdistinct, fun s => ?_, ?_, get?_eq_some_iff_getElem? hdistinct hsmall,
    map_resolve?_fst_give hsmall, fun p hp q hq => ?_⟩
  · rw [fst_give]
    exact mem_strings_ofList texts s
  · rw [hstrings]
    exact Sequence.pairwise_idxOf_eraseDups texts
  · have hfirst := get?_of_mem_zip_give hp
    have hsecond := get?_of_mem_zip_give hq
    rw [← fst_give] at hfirst hsecond
    constructor
    · intro heq
      rw [heq, hsecond] at hfirst
      exact (Option.some.inj hfirst).symm
    · intro heq
      have hresolved := resolve?_of_get? hfirst hsmall
      rw [heq, resolve?_of_get? hsecond hsmall] at hresolved
      exact (Option.some.inj hresolved).symm

structure Indexed where
  index : Std.HashMap String Symbol := ∅
  strings : Array String := #[]

namespace Indexed

def get? (t : Indexed) (s : String) : Option Symbol := t.index[s]?

def intern (t : Indexed) (s : String) : Indexed × Symbol :=
  match t.get? s with
  | some symbol => (t, symbol)
  | none =>
    let symbol : Symbol := ⟨t.strings.size.toUInt32⟩
    (⟨t.index.insert s symbol, t.strings.push s⟩, symbol)

def resolve? (t : Indexed) (symbol : Symbol) : Option String := t.strings[symbol.index.toNat]?

def give (t : Indexed) : List String → Indexed × List Symbol
  | [] => (t, [])
  | s :: rest =>
    let (next, symbol) := t.intern s
    let (last, symbols) := next.give rest
    (last, symbol :: symbols)

/-- The table with an index answers as the interner does. -/
structure Represents (t : Indexed) (u : Interner) : Prop where
  strings : t.strings.toList = u.strings
  get? : ∀ s, t.get? s = u.get? s

variable {t : Indexed} {u : Interner}

theorem Represents.resolve? (h : t.Represents u) (symbol : Symbol) :
    t.resolve? symbol = u.resolve? symbol := by
  unfold Indexed.resolve? Interner.resolve?
  rw [← h.strings, Array.getElem?_toList]

theorem represents_empty : ({} : Indexed).Represents empty :=
  ⟨rfl, fun _ => Std.HashMap.getElem?_empty⟩

theorem Represents.intern (h : t.Represents u) (s : String) :
    (t.intern s).1.Represents (u.intern s).1 ∧ (t.intern s).2 = (u.intern s).2 := by
  have hsize : t.strings.size = u.size := by
    rw [← Array.length_toList, h.strings]
    rfl
  cases hs : u.get? s with
  | some symbol =>
    have hindexed : t.intern s = (t, symbol) := by
      unfold Indexed.intern
      rw [h.get?, hs]
    have hinterned : u.intern s = (u, symbol) := by
      unfold Interner.intern
      rw [hs]
    rw [hindexed, hinterned]
    exact ⟨h, rfl⟩
  | none =>
    have hindexed : t.intern s =
        (⟨t.index.insert s ⟨t.strings.size.toUInt32⟩, t.strings.push s⟩,
          ⟨t.strings.size.toUInt32⟩) := by
      unfold Indexed.intern
      rw [h.get?, hs]
    have hinterned : u.intern s = (⟨u.strings ++ [s]⟩, ⟨UInt32.ofNat u.size⟩) := by
      unfold Interner.intern
      rw [hs]
    have hsymbol : (t.intern s).2 = (u.intern s).2 := by
      rw [hindexed, hinterned, hsize]
    refine ⟨⟨?_, fun other => ?_⟩, hsymbol⟩
    · rw [hindexed, hinterned, Array.toList_push, h.strings]
    · rw [get?_intern, ← hsymbol, ← h.get?, hindexed]
      unfold Indexed.get?
      simp only [Std.HashMap.getElem?_insert, beq_iff_eq]

theorem Represents.give (h : t.Represents u) (texts : List String) :
    (t.give texts).1.Represents (u.give texts).1 ∧ (t.give texts).2 = (u.give texts).2 := by
  induction texts generalizing t u with
  | nil => exact ⟨h, rfl⟩
  | cons s rest ih =>
    obtain ⟨hnext, hsymbol⟩ := h.intern s
    obtain ⟨hlast, hsymbols⟩ := ih hnext
    refine ⟨hlast, ?_⟩
    show (t.intern s).2 :: ((t.intern s).1.give rest).2 = _
    rw [hsymbol, hsymbols]
    rfl

end Indexed

/-- The symbols of a new table number the texts that it is given, as long as their number fits a
word: they lead to the texts then and after all that is given later. A table with an index gives
the same symbols, finds the same texts and resolves the same symbols. -/
theorem symbols_number_texts {texts : List String} (small : texts.eraseDups.length ≤ UInt32.size) :
    Numbers (empty.give texts).1 texts (empty.give texts).2 ∧
    (∀ earlier later, texts = earlier ++ later →
      (empty.give earlier).2 <+: (empty.give texts).2 ∧
      (empty.give earlier).2.map (empty.give earlier).1.resolve? = earlier.map some ∧
      (empty.give earlier).2.map (empty.give texts).1.resolve? = earlier.map some) ∧
    (({} : Indexed).give texts).2 = (empty.give texts).2 ∧
    (({} : Indexed).give texts).1.strings.toList = (empty.give texts).1.strings ∧
    (∀ s, (({} : Indexed).give texts).1.get? s = (empty.give texts).1.get? s) ∧
    ∀ symbol, (({} : Indexed).give texts).1.resolve? symbol =
      (empty.give texts).1.resolve? symbol := by
  obtain ⟨hindexed, hsymbols⟩ := Indexed.represents_empty.give texts
  refine ⟨numbers_give small, fun earlier later hsplit => ?_, hsymbols, hindexed.strings,
    hindexed.get?, hindexed.resolve?⟩
  have hlater : (empty.give texts).1 = (empty.give earlier).1.internAll later := by
    rw [hsplit, give_append, fst_give]
  have hsize : ((empty.give earlier).1.internAll later).size ≤ UInt32.size := by
    rw [← hlater, fst_give]
    unfold size
    rwa [← ofList, strings_ofList]
  have hearlier : (empty.give earlier).1.size ≤ UInt32.size :=
    Nat.le_trans (size_le_internAll _ later) hsize
  refine ⟨?_, map_resolve?_fst_give hearlier, ?_⟩
  · rw [hsplit, give_append]
    exact List.prefix_append _ _
  · rw [hlater]
    exact map_resolve?_give hsize

def mentioned : List String := ["Geo\\Disc", "geo\\disc", "", "Geo\\Disc", "Countable"]

theorem symbols_number_texts_mentioned :
    mentioned.eraseDups.length ≤ UInt32.size ∧
    (empty.give mentioned).1.strings = ["Geo\\Disc", "geo\\disc", "", "Countable"] ∧
    Numbers (empty.give mentioned).1 mentioned [⟨0⟩, ⟨1⟩, ⟨2⟩, ⟨0⟩, ⟨3⟩] ∧
    [⟨0⟩, ⟨1⟩].map (empty.give mentioned).1.resolve? = (mentioned.take 2).map some ∧
    (({} : Indexed).give mentioned).2 = [⟨0⟩, ⟨1⟩, ⟨2⟩, ⟨0⟩, ⟨3⟩] := by
  have hsmall : mentioned.eraseDups.length ≤ UInt32.size := by decide +kernel
  have hsymbols : (empty.give mentioned).2 = [⟨0⟩, ⟨1⟩, ⟨2⟩, ⟨0⟩, ⟨3⟩] := by decide +kernel
  obtain ⟨hnumbers, hlater, hindexed, -⟩ := symbols_number_texts hsmall
  obtain ⟨-, -, hresolved⟩ := hlater (mentioned.take 2) (mentioned.drop 2) rfl
  have hgiven : (empty.give (mentioned.take 2)).2 = [⟨0⟩, ⟨1⟩] := by decide +kernel
  rw [hgiven] at hresolved
  rw [hsymbols] at hnumbers hindexed
  exact ⟨hsmall, by decide +kernel, hnumbers, hresolved, hindexed⟩

end Interner

end ExtensionHeader
