import ExtensionHeader.Sequence
import Mathlib.Data.List.Forall2
import Mathlib.Data.List.Induction
import Mathlib.Data.List.Nodup

/-! Traversals with the elements before each one, read at single positions, lists that are related in
turn, and the elements that `firstBy` keeps. -/
namespace ExtensionHeader.Sequence

theorem getElem?_mapEarlierFrom (f : List α → α → β) (earlier xs : List α) (i : Nat) :
    (mapEarlierFrom f earlier xs)[i]? = xs[i]?.map (f (earlier ++ xs.take i)) := by
  induction xs generalizing earlier i with
  | nil => simp [mapEarlierFrom]
  | cons x rest ih =>
    cases i with
    | zero => simp [mapEarlierFrom]
    | succ i => simp [mapEarlierFrom, ih]

theorem getElem?_mapEarlier (f : List α → α → β) (xs : List α) (i : Nat) :
    (mapEarlier f xs)[i]? = xs[i]?.map (f (xs.take i)) :=
  getElem?_mapEarlierFrom f [] xs i

theorem mapEarlier_append_cons (f : List α → α → β) (before : List α) (x : α) (after : List α) :
    mapEarlier f (before ++ x :: after) =
      mapEarlier f before ++ f before x :: mapEarlierFrom f (before ++ [x]) after :=
  mapEarlierFrom_append f [] before (x :: after)

theorem mem_mapEarlier_iff (f : List α → α → β) (xs : List α) (y : β) :
    y ∈ mapEarlier f xs ↔ ∃ before x after, xs = before ++ x :: after ∧ y = f before x := by
  constructor
  · intro h
    obtain ⟨i, hi⟩ := List.mem_iff_getElem?.mp h
    rw [getElem?_mapEarlier] at hi
    obtain ⟨x, hx, rfl⟩ := Option.map_eq_some_iff.mp hi
    obtain ⟨hlt, rfl⟩ := List.getElem?_eq_some_iff.mp hx
    exact ⟨xs.take i, xs[i], xs.drop (i + 1), by simp, rfl⟩
  · rintro ⟨before, x, after, rfl, rfl⟩
    rw [mapEarlier_append_cons]
    simp

theorem flatMapEarlier_eq_flatMap_zipIdx (f : List α → α → List β) (xs : List α) :
    flatMapEarlier f xs = xs.zipIdx.flatMap fun (x, i) => f (xs.take i) x := by
  have hmap : mapEarlier f xs = xs.zipIdx.map fun (x, i) => f (xs.take i) x := by
    apply List.ext_getElem?
    intro i
    rw [getElem?_mapEarlier, List.getElem?_map, List.getElem?_zipIdx, Option.map_map]
    simp [Function.comp_def]
  unfold flatMapEarlier
  rw [hmap, List.flatMap_def]

theorem flatMapEarlier_eq_nil_iff (f : List α → α → List β) (xs : List α) :
    flatMapEarlier f xs = [] ↔
      ∀ before x after, xs = before ++ x :: after → f before x = [] := by
  unfold flatMapEarlier
  rw [List.flatten_eq_nil_iff]
  constructor
  · intro h before x after hx
    exact h _ ((mem_mapEarlier_iff f xs _).mpr ⟨before, x, after, hx, rfl⟩)
  · intro h y hy
    obtain ⟨before, x, after, hx, rfl⟩ := (mem_mapEarlier_iff f xs y).mp hy
    exact h before x after hx

theorem exists_eq_nil_of_mem {f : List α → α → List β} {xs : List α}
    (h : flatMapEarlier f xs = []) {x : α} (hx : x ∈ xs) : ∃ before, f before x = [] := by
  obtain ⟨before, after, rfl⟩ := List.append_of_mem hx
  exact ⟨before, (flatMapEarlier_eq_nil_iff f _).mp h before x after rfl⟩

theorem forall_mem_flatMapEarlier {f : List α → α → List β} {p : β → Prop}
    (h : ∀ earlier x, ∀ y ∈ f earlier x, p y) (xs : List α) : ∀ y ∈ flatMapEarlier f xs, p y := by
  intro y hy
  obtain ⟨ys, hys, hmem⟩ := List.mem_flatten.mp hy
  obtain ⟨before, x, after, -, rfl⟩ := (mem_mapEarlier_iff f xs ys).mp hys
  exact h before x y hmem

theorem map_flatMapEarlier (f : List α → α → List β) (g : β → γ) (xs : List α) :
    (flatMapEarlier f xs).map g = flatMapEarlier (fun earlier x => (f earlier x).map g) xs := by
  have hfrom : ∀ earlier : List α, ((mapEarlierFrom f earlier xs).flatten).map g =
      (mapEarlierFrom (fun earlier x => (f earlier x).map g) earlier xs).flatten := by
    induction xs with
    | nil => exact fun _ => rfl
    | cons x rest ih =>
      intro earlier
      rw [mapEarlierFrom, mapEarlierFrom, List.flatten_cons, List.flatten_cons, List.map_append, ih]
  exact hfrom []

/-- What a traversal gives for some of the elements is what it gives on these alone, if they do not
look at the others. -/
theorem filter_flatMapEarlier {f : List α → α → List β} {p : α → Bool} {q : β → Bool}
    (hkept : ∀ earlier x, p x = true → (f earlier x).filter q = f (earlier.filter p) x)
    (hdropped : ∀ earlier x, p x = false → (f earlier x).filter q = []) (xs : List α) :
    (flatMapEarlier f xs).filter q = flatMapEarlier f (xs.filter p) := by
  have hfrom : ∀ earlier : List α, ((mapEarlierFrom f earlier xs).flatten).filter q =
      (mapEarlierFrom f (earlier.filter p) (xs.filter p)).flatten := by
    induction xs with
    | nil => exact fun _ => rfl
    | cons x rest ih =>
      intro earlier
      rw [mapEarlierFrom, List.flatten_cons, List.filter_append, ih, List.filter_append]
      cases hx : p x with
      | true =>
        rw [hkept earlier x hx, List.filter_cons_of_pos hx, List.filter_cons_of_pos hx,
          mapEarlierFrom, List.flatten_cons, List.filter_nil]
      | false =>
        have hskip : ¬ p x = true := by rw [hx]; exact Bool.false_ne_true
        rw [hdropped earlier x hx, List.filter_cons_of_neg hskip, List.filter_cons_of_neg hskip,
          List.filter_nil, List.append_nil, List.nil_append]
  exact hfrom []

theorem flatMap_zipIdx_at (g : α → Nat → List β) (xs : List α) (start position : Nat) :
    ((xs.zipIdx start).flatMap fun x => if x.2 = start + position then g x.1 x.2 else []) =
      xs[position]?.toList.flatMap (g · (start + position)) := by
  induction xs generalizing start position with
  | nil => rfl
  | cons x rest ih =>
    rw [List.zipIdx_cons, List.flatMap_cons]
    cases position with
    | zero =>
      have hlater : ((rest.zipIdx (start + 1)).flatMap fun x =>
          if x.2 = start + 0 then g x.1 x.2 else []) = [] := by
        rw [List.flatMap_eq_nil_iff]
        intro y hy
        have hle := (List.mem_zipIdx hy).1
        exact if_neg (by omega)
      rw [hlater, List.append_nil, if_pos (Nat.add_zero start).symm]
      simp
    | succ position =>
      have hnext : start + 1 + position = start + (position + 1) := by omega
      have hrest := ih (start + 1) position
      rw [hnext] at hrest
      rw [hrest, if_neg (by omega), List.nil_append, List.getElem?_cons_succ]

theorem findIdx?_bind_getElem? (p : α → Bool) (xs : List α) :
    (xs.findIdx? p).bind (xs[·]?) = xs.find? p := by
  induction xs with
  | nil => rfl
  | cons x rest ih =>
    rw [List.findIdx?_cons, List.find?_cons]
    cases p x with
    | true => rfl
    | false =>
      simp only [Bool.false_eq_true, if_false]
      rw [Option.bind_map, ← ih]
      rfl

theorem nodup_map_iff_earlier (key : α → κ) (xs : List α) :
    (xs.map key).Nodup ↔
      ∀ before x after, xs = before ++ x :: after → ∀ y ∈ before, key y ≠ key x := by
  constructor
  · rintro h before x after rfl y hy
    rw [List.map_append, List.nodup_append] at h
    exact h.2.2 _ (List.mem_map_of_mem hy) _ (by simp)
  · intro h
    induction xs using List.reverseRecOn with
    | nil => simp
    | append_singleton rest x ih =>
      have hrest := ih fun before y after hy =>
        h before y (after ++ [x]) (by simp [hy])
      have hlast := h rest x [] rfl
      rw [List.map_append, List.nodup_append]
      refine ⟨hrest, by simp, ?_⟩
      intro a ha b hb
      obtain ⟨y, hy, rfl⟩ := List.mem_map.mp ha
      obtain rfl := List.mem_singleton.mp hb
      exact hlast y hy

/-- Distinct keys stay distinct under any function that determines the key. -/
theorem nodup_map_of_determines {key : α → κ} {f : α → β} {xs : List α} (h : (xs.map key).Nodup)
    (hf : ∀ x ∈ xs, ∀ y ∈ xs, f x = f y → key x = key y) : (xs.map f).Nodup := by
  unfold List.Nodup at h ⊢
  rw [List.pairwise_map] at h ⊢
  apply h.imp_of_mem
  intro x y hx hy hkey heq
  exact hkey (hf x hx y hy heq)

theorem find?_eq_some_iff [DecidableEq κ] {key : α → κ} {xs : List α}
    (h : (xs.map key).Nodup) {k : κ} {x : α} :
    xs.find? (key · = k) = some x ↔ x ∈ xs ∧ key x = k := by
  constructor
  · intro hx
    exact ⟨List.mem_of_find?_eq_some hx, by simpa using List.find?_some hx⟩
  · rintro ⟨hx, rfl⟩
    have hsome : (xs.find? (key · = key x)).isSome := by
      rw [List.find?_isSome]
      exact ⟨x, hx, decide_eq_true rfl⟩
    obtain ⟨y, hy⟩ := Option.isSome_iff_exists.mp hsome
    have hkey : key y = key x := by simpa using List.find?_some hy
    rw [hy, List.inj_on_of_nodup_map h (List.mem_of_find?_eq_some hy) hx hkey]

theorem filter_eq_toList_find? [DecidableEq κ] {key : α → κ} {xs : List α}
    (h : (xs.map key).Nodup) (k : κ) :
    xs.filter (key · = k) = (xs.find? (key · = k)).toList := by
  induction xs with
  | nil => rfl
  | cons x rest ih =>
    rw [List.map_cons, List.nodup_cons] at h
    by_cases hx : key x = k
    · have hnone : rest.filter (key · = k) = [] := by
        rw [List.filter_eq_nil_iff]
        intro y hy hkey
        exact h.1 ((of_decide_eq_true hkey).trans hx.symm ▸ List.mem_map_of_mem hy)
      rw [List.filter_cons_of_pos (by simpa using hx), hnone,
        List.find?_cons_of_pos (by simpa using hx), Option.toList_some]
    · rw [List.filter_cons_of_neg (by simpa using hx), ih h.2,
        List.find?_cons_of_neg (by simpa using hx)]

theorem lookup_filter_ne [BEq κ] [LawfulBEq κ] [DecidableEq κ] {entries : List (κ × α)}
    {dropped key : κ} (h : dropped ≠ key) :
    (entries.filter (·.1 ≠ dropped)).lookup key = entries.lookup key := by
  induction entries with
  | nil => rfl
  | cons entry rest ih =>
    by_cases hfirst : entry.1 = dropped
    · have hother : (key == entry.1) = false := by
        rw [hfirst, beq_eq_false_iff_ne]
        exact Ne.symm h
      rw [List.filter_cons_of_neg (by simpa using hfirst), ih, List.lookup_cons, hother]
    · rw [List.filter_cons_of_pos (by simpa using hfirst), List.lookup_cons, List.lookup_cons, ih]

section Forall₂

variable {R : α → β → Prop} {xs : List α} {ys : List β}

theorem exists_right_of_forall₂ (h : List.Forall₂ R xs ys) {x : α} (hx : x ∈ xs) :
    ∃ y ∈ ys, R x y := by
  induction h with
  | nil => exact absurd hx List.not_mem_nil
  | cons hfirst _ ih =>
    rcases List.mem_cons.mp hx with rfl | hx
    · exact ⟨_, List.mem_cons_self, hfirst⟩
    · obtain ⟨y, hy, hrelated⟩ := ih hx
      exact ⟨y, List.mem_cons_of_mem _ hy, hrelated⟩

theorem exists_left_of_forall₂ (h : List.Forall₂ R xs ys) {y : β} (hy : y ∈ ys) :
    ∃ x ∈ xs, R x y :=
  exists_right_of_forall₂ (R := flip R) (.flip h) hy

end Forall₂

section firstBy

variable {κ : Type*} [DecidableEq κ] (key : α → κ)

theorem firstBy_eq_self {xs : List α} (h : (xs.map key).Nodup) : firstBy key xs = xs := by
  induction xs with
  | nil => rfl
  | cons x rest ih =>
    rw [List.map_cons, List.nodup_cons] at h
    have hrest : rest.filter (fun y => decide (key y ≠ key x)) = rest := by
      rw [List.filter_eq_self]
      intro y hy
      have hne : key y ≠ key x := fun heq => h.1 (heq ▸ List.mem_map_of_mem hy)
      simpa using hne
    rw [firstBy_cons, hrest, ih h.2]

theorem exists_mem_firstBy {xs : List α} {x : α} (h : x ∈ xs) :
    ∃ y ∈ firstBy key xs, key y = key x := by
  induction xs using firstBy_induction key with
  | nil => exact absurd h List.not_mem_nil
  | cons first rest ih =>
    rw [firstBy_cons]
    by_cases hkey : key x = key first
    · exact ⟨first, List.mem_cons_self, hkey.symm⟩
    · have hrest : x ∈ rest := by
        rcases List.mem_cons.mp h with rfl | h
        · exact absurd rfl hkey
        · exact h
      obtain ⟨y, hy, hyx⟩ := ih (List.mem_filter.mpr ⟨hrest, decide_eq_true hkey⟩)
      exact ⟨y, List.mem_cons_of_mem _ hy, hyx⟩

theorem nodup_map_firstBy (xs : List α) : ((firstBy key xs).map key).Nodup := by
  induction xs using firstBy_induction key with
  | nil => exact List.nodup_nil
  | cons x rest ih =>
    rw [firstBy_cons, List.map_cons, List.nodup_cons]
    refine ⟨fun hmem => ?_, ih⟩
    obtain ⟨y, hy, hkey⟩ := List.mem_map.mp hmem
    have hne := List.of_mem_filter (mem_of_mem_firstBy hy)
    exact of_decide_eq_true hne hkey

theorem find?_firstBy (xs : List α) (k : κ) :
    (firstBy key xs).find? (key · = k) = xs.find? (key · = k) := by
  induction xs using firstBy_induction key with
  | nil => rfl
  | cons x rest ih =>
    rw [firstBy_cons]
    by_cases hx : key x = k
    · rw [List.find?_cons_of_pos (by simpa using hx), List.find?_cons_of_pos (by simpa using hx)]
    · rw [List.find?_cons_of_neg (by simpa using hx), List.find?_cons_of_neg (by simpa using hx),
        ih, List.find?_filter]
      congr 1
      funext y
      simp only [decide_eq_true_eq]
      exact decide_eq_decide.mpr ⟨And.right, fun h => ⟨fun heq => hx (heq ▸ h), h⟩⟩

theorem mem_firstBy_iff {xs : List α} {x : α} :
    x ∈ firstBy key xs ↔ xs.find? (key · = key x) = some x := by
  rw [← find?_firstBy, find?_eq_some_iff (nodup_map_firstBy key xs), and_iff_left rfl]

theorem firstBy_map {β : Type*} (f : β → α) (xs : List β) :
    firstBy key (xs.map f) = (firstBy (fun x => key (f x)) xs).map f := by
  induction xs using firstBy_induction fun x => key (f x) with
  | nil => rfl
  | cons x rest ih =>
    rw [List.map_cons, firstBy_cons, firstBy_cons, List.map_cons, List.filter_map]
    exact congrArg (f x :: ·) ih

theorem firstBy_append (xs ys : List α) :
    firstBy key (xs ++ ys) =
      firstBy key xs ++ firstBy key (ys.filter fun y => ∀ x ∈ xs, key x ≠ key y) := by
  induction xs using firstBy_induction key generalizing ys with
  | nil => simp
  | cons x rest ih =>
    have hfilter : (ys.filter fun y => key y ≠ key x).filter
        (fun y => ∀ z ∈ rest.filter fun z => key z ≠ key x, key z ≠ key y) =
        ys.filter fun y => ∀ z ∈ x :: rest, key z ≠ key y := by
      rw [List.filter_filter]
      refine List.filter_congr fun y _ => ?_
      rw [Bool.eq_iff_iff]
      simp only [Bool.and_eq_true, decide_eq_true_eq, List.mem_filter, List.forall_mem_cons]
      constructor
      · rintro ⟨h, hne⟩
        exact ⟨hne.symm, fun z hz heq => h z ⟨hz, fun hzx => hne (heq.symm.trans hzx)⟩ heq⟩
      · rintro ⟨hne, h⟩
        exact ⟨fun z hz => h z hz.1, hne.symm⟩
    rw [List.cons_append, firstBy_cons, firstBy_cons, List.filter_append, ih, hfilter,
      List.cons_append]

theorem firstBy_concat (xs : List α) (x : α) :
    firstBy key (xs ++ [x]) =
      if (firstBy key xs).any (key · = key x) then firstBy key xs else firstBy key xs ++ [x] := by
  have hkeys : (firstBy key xs).any (key · = key x) = xs.any (key · = key x) := by
    rw [Bool.eq_iff_iff, List.any_eq_true, List.any_eq_true]
    constructor
    · rintro ⟨y, hy, heq⟩
      exact ⟨y, mem_of_mem_firstBy hy, heq⟩
    · rintro ⟨y, hy, heq⟩
      obtain ⟨z, hz, hkey⟩ := exists_mem_firstBy key hy
      exact ⟨z, hz, by rwa [hkey]⟩
  rw [hkeys, firstBy_append]
  by_cases hx : xs.any (key · = key x) = true
  · have hdrop : ¬ ∀ y ∈ xs, key y ≠ key x := by simpa using hx
    rw [if_pos hx, List.filter_cons_of_neg (by simpa using hdrop), List.filter_nil, firstBy_nil,
      List.append_nil]
  · have hkeep : ∀ y ∈ xs, key y ≠ key x := by simpa using hx
    rw [if_neg hx, List.filter_cons_of_pos (by simpa using hkeep), List.filter_nil, firstBy_cons,
      List.filter_nil, firstBy_nil]

theorem firstBy_firstBy_append (xs ys : List α) :
    firstBy key (firstBy key xs ++ ys) = firstBy key (xs ++ ys) := by
  have hsame : ∀ y, (∀ x ∈ firstBy key xs, key x ≠ key y) ↔ ∀ x ∈ xs, key x ≠ key y := by
    intro y
    constructor
    · intro h x hx
      obtain ⟨z, hz, hkey⟩ := exists_mem_firstBy key hx
      exact hkey ▸ h z hz
    · exact fun h x hx => h x (mem_of_mem_firstBy hx)
  rw [firstBy_append, firstBy_append, firstBy_eq_self key (nodup_map_firstBy key xs)]
  simp only [hsame]

theorem filter_firstBy (xs : List α) (k : κ) :
    (firstBy key xs).filter (key · = k) = (xs.find? (key · = k)).toList := by
  rw [← find?_firstBy, filter_eq_toList_find? (nodup_map_firstBy key xs)]

theorem eraseDups_eq_firstBy [BEq α] [LawfulBEq α] [DecidableEq α] (xs : List α) :
    xs.eraseDups = firstBy id xs := by
  unfold List.eraseDups firstBy
  congr 1
  funext x y
  simp only [id_eq, Bool.beq_eq_decide_eq]

theorem eraseDups_map [BEq β] [LawfulBEq β] [DecidableEq β] (f : α → β) (xs : List α) :
    (xs.map f).eraseDups = (firstBy f xs).map f := by
  rw [eraseDups_eq_firstBy, firstBy_map]
  rfl

theorem nodup_eraseDups [BEq α] [LawfulBEq α] [DecidableEq α] (xs : List α) :
    xs.eraseDups.Nodup := by
  have h := nodup_map_firstBy id xs
  rw [List.map_id] at h
  rwa [eraseDups_eq_firstBy]

end firstBy

end ExtensionHeader.Sequence
