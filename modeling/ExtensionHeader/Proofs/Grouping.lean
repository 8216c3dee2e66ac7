import ExtensionHeader.Proofs.Sequence
import Mathlib.Data.List.Find
import Mathlib.Data.List.Lex
import Mathlib.Data.List.Pairwise
import Mathlib.Data.List.Sort

/-! Elements of a list put together by a relation that is symmetric and transitive. What is related to
nothing is left out. The groups and their members keep the order of the list, and there is only one
way to do this. -/
namespace ExtensionHeader.Sequence

theorem eq_filter_of_sublist {part xs : List α} {p : α → Bool} (hxs : xs.Nodup)
    (h : part.Sublist xs) (hp : ∀ x ∈ xs, x ∈ part ↔ p x = true) : part = xs.filter p := by
  induction h with
  | slnil => rfl
  | @cons part rest x hpart ih =>
    obtain ⟨hx, hrest⟩ := List.nodup_cons.mp hxs
    obtain ⟨hpx, hprest⟩ := List.forall_mem_cons.mp hp
    have hskip : ¬ p x = true := fun htrue => hx (hpart.subset (hpx.mpr htrue))
    rw [List.filter_cons_of_neg hskip]
    exact ih hrest hprest
  | @cons_cons part rest x hpart ih =>
    obtain ⟨hx, hrest⟩ := List.nodup_cons.mp hxs
    obtain ⟨hpx, hprest⟩ := List.forall_mem_cons.mp hp
    rw [List.filter_cons_of_pos (hpx.mp List.mem_cons_self)]
    refine congrArg (x :: ·) (ih hrest fun y hy => ?_)
    have hne : y ≠ x := fun heq => hx (heq ▸ hy)
    rw [← hprest y hy, List.mem_cons, or_iff_right hne]

theorem sublist_of_sublist_append {part xs ys : List α} (h : part.Sublist (xs ++ ys))
    (hys : ∀ y ∈ ys, y ∉ part) : part.Sublist xs := by
  obtain ⟨front, back, rfl, hfront, hback⟩ := List.sublist_append_iff.mp h
  have hnil : back = [] := by
    rw [List.eq_nil_iff_forall_not_mem]
    exact fun y hy => hys y (hback.subset hy) (List.mem_append_right front hy)
  rwa [hnil, List.append_nil]

structure IsPartialEquiv (r : α → α → Prop) : Prop where
  symm : ∀ {x y}, r x y → r y x
  trans : ∀ {x y z}, r x y → r y z → r x z

/-- The groups of `xs` by `r`: related elements are in one group, and no others are. -/
structure IsGrouping (r : α → α → Prop) (xs : List α) (groups : List (List α)) : Prop where
  together : ∀ x ∈ xs, ∀ y ∈ xs, (∃ group ∈ groups, x ∈ group ∧ y ∈ group) ↔ r x y
  once : groups.flatten.Nodup
  /-- The members of a group are in the order of `xs`. -/
  ordered : ∀ group ∈ groups, group.Sublist xs
  /-- No group is empty, and the first members are in the order of `xs`. -/
  leaders : (groups.map (·.head?)).Sublist (xs.map some)

namespace IsGrouping

variable {r : α → α → Prop} {xs ys : List α} {groups : List (List α)}

theorem map {s : β → β → Prop} {f : α → β} (h : IsGrouping r xs groups)
    (hf : (xs.map f).Nodup) (hs : ∀ x ∈ xs, ∀ y ∈ xs, s (f x) (f y) ↔ r x y) :
    IsGrouping s (xs.map f) (groups.map (·.map f)) := by
  have hin : ∀ group ∈ groups, ∀ x ∈ group, x ∈ xs := fun group hgroup =>
    (h.ordered group hgroup).subset
  have hmem : ∀ group ∈ groups, ∀ x ∈ xs, f x ∈ group.map f ↔ x ∈ group := by
    intro group hgroup x hx
    constructor
    · intro hfx
      obtain ⟨y, hy, heq⟩ := List.mem_map.mp hfx
      rwa [← List.inj_on_of_nodup_map hf (hin group hgroup y hy) hx heq]
    · exact List.mem_map_of_mem
  constructor
  · rw [List.forall_mem_map]
    intro x hx
    rw [List.forall_mem_map]
    intro y hy
    rw [hs x hx y hy, ← h.together x hx y hy]
    constructor
    · rintro ⟨_, himage, hfx, hfy⟩
      obtain ⟨group, hgroup, rfl⟩ := List.mem_map.mp himage
      exact ⟨group, hgroup, (hmem group hgroup x hx).mp hfx, (hmem group hgroup y hy).mp hfy⟩
    · rintro ⟨group, hgroup, hxg, hyg⟩
      exact ⟨_, List.mem_map_of_mem hgroup, List.mem_map_of_mem hxg, List.mem_map_of_mem hyg⟩
  · rw [← List.map_flatten]
    refine h.once.map_on fun x hx y hy heq => ?_
    obtain ⟨gx, hgx, hxg⟩ := List.mem_flatten.mp hx
    obtain ⟨gy, hgy, hyg⟩ := List.mem_flatten.mp hy
    exact List.inj_on_of_nodup_map hf (hin gx hgx x hxg) (hin gy hgy y hyg) heq
  · rw [List.forall_mem_map]
    exact fun group hgroup => (h.ordered group hgroup).map f
  · have hheads := h.leaders.map (Option.map f)
    simpa [List.map_map, Function.comp_def] using hheads

theorem of_append (h : IsGrouping r (xs ++ ys) groups) (hys : ∀ y ∈ ys, ¬ r y y) :
    IsGrouping r xs groups := by
  have hout : ∀ y ∈ ys, ∀ group ∈ groups, y ∉ group := by
    intro y hy group hgroup hmem
    have hin := List.mem_append_right xs hy
    exact hys y hy ((h.together y hin y hin).mp ⟨group, hgroup, hmem, hmem⟩)
  constructor
  · intro x hx y hy
    exact h.together x (List.mem_append_left ys hx) y (List.mem_append_left ys hy)
  · exact h.once
  · intro group hgroup
    exact sublist_of_sublist_append (h.ordered group hgroup) fun y hy => hout y hy group hgroup
  · have hleaders := h.leaders
    rw [List.map_append] at hleaders
    refine sublist_of_sublist_append hleaders (List.forall_mem_map.mpr fun y hy hhead => ?_)
    obtain ⟨group, hgroup, hgy⟩ := List.mem_map.mp hhead
    exact hout y hy group hgroup (List.mem_of_head? hgy)

end IsGrouping

def related (r : α → α → Prop) [DecidableRel r] (xs : List α) (x : α) : List α :=
  xs.filter fun y => r x y

def isLeader [DecidableEq α] (r : α → α → Prop) [DecidableRel r] (xs : List α) (x : α) : Bool :=
  (related r xs x).head? = some x

section related

variable {r : α → α → Prop} [DecidableRel r] {xs : List α} {x y : α}

theorem mem_related : y ∈ related r xs x ↔ y ∈ xs ∧ r x y := by
  unfold related
  rw [List.mem_filter, decide_eq_true_iff]

theorem head?_related : (related r xs x).head? = xs.find? fun y => r x y :=
  List.head?_filter

theorem related_eq (hr : IsPartialEquiv r) (h : r x y) : related r xs x = related r xs y := by
  unfold related
  refine List.filter_congr fun z _ => ?_
  exact decide_eq_decide.mpr ⟨hr.trans (hr.symm h), hr.trans h⟩

theorem mem_related_self (hr : IsPartialEquiv r) (hx : x ∈ xs) (h : r x y) :
    x ∈ related r xs x :=
  mem_related.mpr ⟨hx, hr.trans h (hr.symm h)⟩

end related

section leaders

variable [DecidableEq α] {r : α → α → Prop} [DecidableRel r] {xs : List α} {x y : α}

theorem exists_leader (hr : IsPartialEquiv r) (hx : x ∈ xs) (h : r x y) :
    ∃ z ∈ xs, isLeader r xs z = true ∧ r z x := by
  obtain ⟨z, hz⟩ : ∃ z, (related r xs x).head? = some z :=
    Option.isSome_iff_exists.mp
      (List.isSome_head?.mpr (List.ne_nil_of_mem (mem_related_self hr hx h)))
  obtain ⟨hzxs, hxz⟩ := mem_related.mp (List.mem_of_head? hz)
  refine ⟨z, hzxs, decide_eq_true ?_, hr.symm hxz⟩
  rw [← related_eq hr hxz, hz]

theorem eq_of_isLeader (hr : IsPartialEquiv r) (hx : isLeader r xs x = true)
    (hy : isLeader r xs y = true) (h : r x y) : x = y := by
  have hhead : (related r xs x).head? = some x := of_decide_eq_true hx
  rw [related_eq hr h, of_decide_eq_true hy] at hhead
  exact (Option.some.inj hhead).symm

theorem isGrouping_leaders (hr : IsPartialEquiv r) (hxs : xs.Nodup) :
    IsGrouping r xs ((xs.filter (isLeader r xs)).map (related r xs)) where
  together := by
    intro x hx y hy
    constructor
    · rintro ⟨group, hgroup, hxg, hyg⟩
      obtain ⟨z, -, rfl⟩ := List.mem_map.mp hgroup
      exact hr.trans (hr.symm (mem_related.mp hxg).2) (mem_related.mp hyg).2
    · intro h
      obtain ⟨z, hz, hleader, hzx⟩ := exists_leader hr hx h
      exact ⟨related r xs z, List.mem_map_of_mem (List.mem_filter.mpr ⟨hz, hleader⟩),
        mem_related.mpr ⟨hx, hzx⟩, mem_related.mpr ⟨hy, hr.trans hzx h⟩⟩
  once := by
    rw [← List.flatMap_def, List.nodup_flatMap]
    refine ⟨fun x _ => hxs.filter _, ?_⟩
    apply (hxs.filter (isLeader r xs)).imp_of_mem
    intro x y hx hy hne z hzx hzy
    have hxy := hr.trans (mem_related.mp hzx).2 (hr.symm (mem_related.mp hzy).2)
    exact hne (eq_of_isLeader hr (List.mem_filter.mp hx).2 (List.mem_filter.mp hy).2 hxy)
  ordered := by
    intro group hgroup
    obtain ⟨x, -, rfl⟩ := List.mem_map.mp hgroup
    exact List.filter_sublist
  leaders := by
    have hheads : ((xs.filter (isLeader r xs)).map (related r xs)).map (·.head?) =
        (xs.filter (isLeader r xs)).map some := by
      rw [List.map_map]
      refine List.map_congr_left fun x hx => ?_
      exact of_decide_eq_true (List.mem_filter.mp hx).2
    rw [hheads]
    exact List.filter_sublist.map some

end leaders

namespace IsGrouping

variable {r : α → α → Prop} {xs : List α} {groups : List (List α)} {group : List α}

theorem exists_head (h : IsGrouping r xs groups) (hgroup : group ∈ groups) :
    ∃ x ∈ xs, group.head? = some x := by
  have hmem := h.leaders.subset (List.mem_map_of_mem hgroup)
  obtain ⟨x, hx, heq⟩ := List.mem_map.mp hmem
  exact ⟨x, hx, heq.symm⟩

theorem eq_of_mem (h : IsGrouping r xs groups) {other : List α} (hgroup : group ∈ groups)
    (hother : other ∈ groups) {x : α} (hx : x ∈ group) (hx' : x ∈ other) : group = other := by
  by_contra hne
  have hdisjoint := (List.nodup_flatten.mp h.once).2
  have hsymm : Std.Symm (@List.Disjoint α) := ⟨fun _ _ hd _ hr hp => hd hp hr⟩
  exact List.Pairwise.forall hdisjoint hgroup hother hne hx hx'

variable [DecidableRel r]

theorem eq_related (h : IsGrouping r xs groups) (hxs : xs.Nodup) (hgroup : group ∈ groups)
    {x : α} (hx : x ∈ group) : group = related r xs x := by
  have hsub := h.ordered group hgroup
  refine eq_filter_of_sublist hxs hsub fun y hy => ?_
  rw [decide_eq_true_iff, ← h.together x (hsub.subset hx) y hy]
  constructor
  · exact fun hmem => ⟨group, hgroup, hx, hmem⟩
  · rintro ⟨other, hother, hxo, hyo⟩
    rwa [h.eq_of_mem hgroup hother hx hxo]

theorem map_heads (h : IsGrouping r xs groups) (hxs : xs.Nodup) :
    (groups.filterMap (·.head?)).map (related r xs) = groups := by
  calc (groups.filterMap (·.head?)).map (related r xs)
      = groups.filterMap fun group => group.head?.map (related r xs) := List.map_filterMap
    _ = groups.filterMap some := List.filterMap_congr fun group hgroup => by
        obtain ⟨x, -, hx⟩ := h.exists_head hgroup
        rw [hx, Option.map_some, ← h.eq_related hxs hgroup (List.mem_of_head? hx)]
    _ = groups := List.filterMap_some

variable [DecidableEq α]

theorem heads_eq (h : IsGrouping r xs groups) (hxs : xs.Nodup) :
    groups.filterMap (·.head?) = xs.filter (isLeader r xs) := by
  have hsub : (groups.filterMap (·.head?)).Sublist xs := by
    simpa [List.filterMap_map, Function.comp_def] using h.leaders.filterMap id
  refine eq_filter_of_sublist hxs hsub fun x hx => ?_
  unfold isLeader
  rw [List.mem_filterMap, decide_eq_true_iff]
  constructor
  · rintro ⟨group, hgroup, hhead⟩
    rwa [← h.eq_related hxs hgroup (List.mem_of_head? hhead)]
  · intro hhead
    have hself : r x x := (mem_related.mp (List.mem_of_head? hhead)).2
    obtain ⟨group, hgroup, hxg, -⟩ := (h.together x hx x hx).mpr hself
    exact ⟨group, hgroup, by rwa [h.eq_related hxs hgroup hxg]⟩

/-- The groups are those of the leaders, in their order. -/
theorem eq_map_leaders (h : IsGrouping r xs groups) (hxs : xs.Nodup) :
    groups = (xs.filter (isLeader r xs)).map (related r xs) := by
  rw [← h.heads_eq hxs, h.map_heads hxs]

theorem unique {others : List (List α)} (h : IsGrouping r xs groups)
    (hothers : IsGrouping r xs others) (hxs : xs.Nodup) : groups = others :=
  (h.eq_map_leaders hxs).trans (hothers.eq_map_leaders hxs).symm

end IsGrouping

section groups

variable [DecidableEq α] {r : α → α → Prop} [DecidableRel r] {xs : List α}

theorem find?_related (hr : IsPartialEquiv r) (x : α) :
    (xs.filter fun y => r y y).find? (fun y => related r xs y = related r xs x) =
      (related r xs x).head? := by
  rw [List.find?_filter, head?_related]
  refine List.find?_congr fun y hy => decide_eq_decide.mpr ?_
  rw [decide_eq_true_iff, decide_eq_true_iff]
  constructor
  · rintro ⟨hself, heq⟩
    have hmem : y ∈ related r xs y := mem_related.mpr ⟨hy, hself⟩
    rw [heq] at hmem
    exact (mem_related.mp hmem).2
  · intro hxy
    exact ⟨hr.trans (hr.symm hxy) hxy, (related_eq hr hxy).symm⟩

/-- The groups of all elements, each group listed once. -/
theorem eraseDups_map_related (hr : IsPartialEquiv r) (hxs : xs.Nodup) :
    ((xs.filter fun x => r x x).map (related r xs)).eraseDups =
      (xs.filter (isLeader r xs)).map (related r xs) := by
  have hsub : (firstBy (related r xs) (xs.filter fun x => r x x)).Sublist xs :=
    (sublist_firstBy _ _).trans List.filter_sublist
  rw [eraseDups_map]
  refine congrArg (List.map _) (eq_filter_of_sublist hxs hsub fun x _ => ?_)
  rw [mem_firstBy_iff, find?_related hr]
  exact decide_eq_true_iff.symm

end groups

section sorted

variable {xs : List α} {groups : List (List α)}

theorem head_le_of_le [LinearOrder α] {x y : α} {front back : List α}
    (h : x :: front ≤ y :: back) : x ≤ y :=
  le_of_not_gt fun hlt => absurd h (not_le_of_gt (List.Lex.rel hlt))

theorem filterMap_head?_sublist (groups : List (List α)) :
    (groups.filterMap (·.head?)).Sublist groups.flatten := by
  induction groups with
  | nil => exact .slnil
  | cons group rest ih =>
    cases group with
    | nil => exact ih
    | cons x tail => exact (ih.trans (List.sublist_append_right tail _)).cons_cons x

theorem map_head?_eq (h : [] ∉ groups) :
    groups.map (·.head?) = (groups.filterMap (·.head?)).map some := by
  induction groups with
  | nil => rfl
  | cons group rest ih =>
    rw [List.mem_cons, not_or] at h
    obtain ⟨hgroup, hrest⟩ := h
    obtain ⟨x, tail, rfl⟩ := List.exists_cons_of_ne_nil (Ne.symm hgroup)
    rw [List.map_cons, ih hrest]
    rfl

variable [LinearOrder α]

theorem sublist_map_head? (hxs : xs.SortedLT) (sorted : groups.SortedLE)
    (once : groups.flatten.Nodup) (inside : groups.flatten ⊆ xs) (nonempty : [] ∉ groups) :
    (groups.map (·.head?)).Sublist (xs.map some) := by
  have hsub := filterMap_head?_sublist groups
  have hheads : (groups.filterMap (·.head?)).SortedLE := by
    refine List.Pairwise.sortedLE (List.pairwise_filterMap.mpr (sorted.pairwise.imp ?_))
    intro first second hle x hx y hy
    obtain ⟨_, rfl⟩ := List.head?_eq_some_iff.mp hx
    obtain ⟨_, rfl⟩ := List.head?_eq_some_iff.mp hy
    exact head_le_of_le hle
  rw [map_head?_eq nonempty]
  refine List.Sublist.map some (List.sublist_of_subperm_of_sortedLE ?_ hheads hxs.sortedLE)
  exact List.subperm_of_subset (once.sublist hsub) (List.Subset.trans hsub.subset inside)

theorem flatten_map_mergeSort_perm (groups : List (List α)) :
    (groups.map (·.mergeSort)).mergeSort.flatten.Perm groups.flatten := by
  refine (List.mergeSort_perm _ _).flatten.trans ?_
  induction groups with
  | nil => exact .refl _
  | cons group rest ih => exact (List.mergeSort_perm group _).append ih

/-- Groups that come in no order are put in order by sorting each of them, and then all. -/
theorem isGrouping_mergeSort {r : α → α → Prop} (hxs : xs.SortedLT)
    (once : groups.flatten.Nodup) (inside : groups.flatten ⊆ xs) (nonempty : [] ∉ groups)
    (together : ∀ x ∈ xs, ∀ y ∈ xs, (∃ group ∈ groups, x ∈ group ∧ y ∈ group) ↔ r x y) :
    IsGrouping r xs (groups.map (·.mergeSort)).mergeSort := by
  have hperm := flatten_map_mergeSort_perm groups
  have hmem : ∀ group, group ∈ (groups.map (·.mergeSort)).mergeSort ↔
      ∃ own ∈ groups, own.mergeSort = group := by
    intro group
    rw [List.mem_mergeSort, List.mem_map]
  have hnil : [] ∉ (groups.map (·.mergeSort)).mergeSort := by
    rw [hmem]
    rintro ⟨own, hown, heq⟩
    rw [← List.length_eq_zero_iff, List.length_mergeSort, List.length_eq_zero_iff] at heq
    exact nonempty (heq ▸ hown)
  have hinside := List.Subset.trans hperm.subset inside
  constructor
  · intro x hx y hy
    rw [← together x hx y hy]
    simp only [hmem, exists_exists_and_eq_and, List.mem_mergeSort]
  · exact hperm.nodup_iff.mpr once
  · intro group hgroup
    obtain ⟨own, hown, rfl⟩ := (hmem group).mp hgroup
    have hsub : own.mergeSort ⊆ xs :=
      fun x hx => hinside (List.mem_flatten.mpr ⟨_, hgroup, hx⟩)
    have hnodup := (List.nodup_flatten.mp (hperm.nodup_iff.mpr once)).1 _ hgroup
    exact List.sublist_of_subperm_of_sortedLE (List.subperm_of_subset hnodup hsub)
      List.sortedLE_mergeSort hxs.sortedLE
  · exact sublist_map_head? hxs List.sortedLE_mergeSort (hperm.nodup_iff.mpr once) hinside hnil

end sorted

end ExtensionHeader.Sequence
