import ExtensionHeader.Ownership
import Mathlib.Data.List.Nodup

/-! Events on different handles do not depend on each other. A routine is balanced exactly when, for
every handle, the events on it are one of three sequences; so no handle is created twice. -/
namespace ExtensionHeader.Ownership

def Event.handle : Event → String
  | acquire handle | consume handle _ | release handle | allocate handle | transfer handle _ =>
    handle

def Event.created? : Event → Option String
  | acquire handle | allocate handle => some handle
  | _ => none

def on (handle : String) (events : List Event) : List Event :=
  events.filter (·.handle = handle)

/-- The sequences of events that leave one handle balanced. -/
inductive Balanced (handle : String) : List Event → Prop where
  | unused : Balanced handle []
  | held (users : List String) (used : users ≠ []) :
    Balanced handle (.acquire handle :: users.map (.consume handle) ++ [.release handle])
  | handed (target : String) : Balanced handle [.allocate handle, .transfer handle target]

@[simp] theorem on_nil (handle : String) : on handle [] = [] := rfl

@[simp] theorem on_append (handle : String) (first second : List Event) :
    on handle (first ++ second) = on handle first ++ on handle second := by
  simp [on]

theorem on_cons (handle : String) (e : Event) (rest : List Event) :
    on handle (e :: rest) = if e.handle = handle then e :: on handle rest else on handle rest := by
  simp only [on, List.filter_cons, decide_eq_true_eq]

theorem on_cons_self (e : Event) (rest : List Event) :
    on e.handle (e :: rest) = e :: on e.handle rest := by
  simp [on]

theorem on_cons_of_ne {handle : String} {e : Event} (h : e.handle ≠ handle) (rest : List Event) :
    on handle (e :: rest) = on handle rest := by
  simp [on, h]

def Event.act (e : Event) : Option Status → Option Status
  | none => match e with
    | acquire _ => some (.counted 0 0)
    | allocate _ => some (.allocated 0)
    | _ => none
  | some status => match e with
    | acquire _ | allocate _ => none
    | _ => (Ledger.advance e status).toOption

def follow : Option Status → List Event → Option (Option Status)
  | status, [] => some status
  | status, e :: rest => (e.act status).bind fun next => follow (some next) rest

def Settled : Option Status → Prop
  | none => True
  | some (.counted _ releases) => releases = 1
  | some (.allocated transfers) => transfers = 1

namespace Ledger

def handles (l : Ledger) : List String := l.map (·.1)

def put (l : Ledger) (handle : String) (status : Status) : Ledger :=
  if (l.find? handle).isSome then l.set handle status else l ++ [(handle, status)]

theorem use_eq_put {l : Ledger} {e : Event} {status : Status} (h : l.find? e.handle = some status) :
    (l.use e.handle e).toOption = (advance e status).toOption.map (l.put e.handle) := by
  unfold use
  rw [h]
  cases ha : advance e status <;> simp [ha, Except.map, Except.toOption, put, h]

theorem step_eq_put (l : Ledger) (e : Event) :
    (l.step e).toOption = (e.act (l.find? e.handle)).map (l.put e.handle) := by
  cases h : l.find? e.handle with
  | none =>
    cases e <;> simp_all [Event.handle, step, create, use, put, Event.act, Except.toOption]
  | some status =>
    have used := use_eq_put h
    cases e <;> simp_all [Event.handle, step, create, Event.act, Except.toOption]

theorem find?_cons_self (handle : String) (status : Status) (rest : Ledger) :
    find? ((handle, status) :: rest) handle = some status := by
  simp [find?]

theorem find?_cons_of_ne {handle other : String} (h : other ≠ handle) (status : Status)
    (rest : Ledger) : find? ((handle, status) :: rest) other = find? rest other := by
  have hb : (other == handle) = false := by simpa using h
  simp only [find?, List.lookup_cons, hb]

theorem find?_set (l : Ledger) (handle : String) (status : Status) (other : String) :
    (l.set handle status).find? other =
      if other = handle then (l.find? handle).map fun _ => status else l.find? other := by
  induction l with
  | nil => simp [set, find?]
  | cons entry rest ih =>
    obtain ⟨first, old⟩ := entry
    have hset : set ((first, old) :: rest) handle status =
        (if first = handle then (handle, status) else (first, old)) ::
          Ledger.set rest handle status := rfl
    rw [hset]
    by_cases hf : first = handle
    · subst hf
      rw [if_pos rfl, find?_cons_self]
      by_cases ho : other = first
      · rw [ho, find?_cons_self, if_pos rfl, Option.map_some]
      · rw [find?_cons_of_ne ho, ih, if_neg ho, if_neg ho, find?_cons_of_ne ho]
    · rw [if_neg hf, find?_cons_of_ne (Ne.symm hf)]
      by_cases ho : other = first
      · subst ho
        rw [find?_cons_self, if_neg hf, find?_cons_self]
      · rw [find?_cons_of_ne ho, ih, find?_cons_of_ne ho]

theorem find?_eq_none_iff (l : Ledger) (handle : String) :
    l.find? handle = none ↔ handle ∉ l.handles := by
  induction l with
  | nil => simp [find?, handles]
  | cons entry rest ih =>
    obtain ⟨first, old⟩ := entry
    by_cases h : handle = first
    · subst h
      simp [find?_cons_self, handles]
    · rw [find?_cons_of_ne h, ih]
      simp [handles, h]

theorem find?_put (l : Ledger) (handle : String) (status : Status) (other : String) :
    (l.put handle status).find? other =
      if other = handle then some status else l.find? other := by
  unfold put
  split
  · rename_i created
    obtain ⟨old, hold⟩ := Option.isSome_iff_exists.mp created
    rw [find?_set, hold, Option.map_some]
  · rename_i fresh
    have hnone : l.find? handle = none := by simpa using fresh
    have happ : find? (l ++ [(handle, status)]) other =
        (l.find? other).or (find? [(handle, status)] other) := List.lookup_append
    rw [happ]
    by_cases ho : other = handle
    · rw [ho, hnone, find?_cons_self, if_pos rfl, Option.none_or]
    · rw [find?_cons_of_ne ho, if_neg ho]
      exact Option.or_none

theorem handles_set (l : Ledger) (handle : String) (status : Status) :
    (l.set handle status).handles = l.handles := by
  unfold handles set
  rw [List.map_map]
  apply List.map_congr_left
  intro entry _
  by_cases h : entry.1 = handle <;> simp [h]

theorem nodup_handles_put {l : Ledger} (h : l.handles.Nodup) (handle : String) (status : Status) :
    (l.put handle status).handles.Nodup := by
  unfold put
  split
  · rwa [handles_set]
  · rename_i fresh
    have absent : handle ∉ l.handles := (find?_eq_none_iff l handle).mp (by simpa using fresh)
    have happ : handles (l ++ [(handle, status)]) = l.handles ++ [handle] := List.map_append
    rw [happ, ← List.concat_eq_append]
    exact List.Nodup.concat absent h

theorem step_eq_ok_iff (l next : Ledger) (e : Event) :
    l.step e = .ok next ↔
      ∃ status, e.act (l.find? e.handle) = some status ∧ l.put e.handle status = next := by
  have h : l.step e = .ok next ↔ (l.step e).toOption = some next := by
    cases l.step e <;> simp [Except.toOption]
  rw [h, step_eq_put, Option.map_eq_some_iff]

/-- After a run every handle has the status that the events on it alone lead to. -/
theorem follow_of_run {l final : Ledger} {events : List Event} (h : l.run events = .ok final)
    (handle : String) : follow (l.find? handle) (on handle events) = some (final.find? handle) := by
  induction events generalizing l with
  | nil =>
    cases Except.ok.inj h
    rfl
  | cons e rest ih =>
    simp only [run] at h
    split at h
    · rename_i next hn
      obtain ⟨status, ha, rfl⟩ := (step_eq_ok_iff l next e).mp hn
      have hrest := ih h
      rw [find?_put] at hrest
      by_cases he : e.handle = handle
      · subst he
        rw [on_cons_self, follow, ha]
        simpa using hrest
      · rw [on_cons_of_ne he]
        rwa [if_neg (Ne.symm he)] at hrest
    · contradiction

/-- If the events on each handle are allowed by themselves, then so is the whole run. -/
theorem run_of_follow {l : Ledger} {events : List Event}
    (h : ∀ handle, (follow (l.find? handle) (on handle events)).isSome) :
    ∃ final, l.run events = .ok final := by
  induction events generalizing l with
  | nil => exact ⟨l, rfl⟩
  | cons e rest ih =>
    have head := h e.handle
    rw [on_cons_self, follow] at head
    cases ha : e.act (l.find? e.handle) with
    | none => simp [ha] at head
    | some status =>
      have hn := (step_eq_ok_iff l _ e).mpr ⟨status, ha, rfl⟩
      have hrest : ∀ handle, (follow ((l.put e.handle status).find? handle)
          (on handle rest)).isSome := by
        intro handle
        rw [find?_put]
        by_cases he : handle = e.handle
        · subst he
          simpa [ha] using head
        · rw [if_neg he, ← on_cons_of_ne (Ne.symm he)]
          exact h handle
      obtain ⟨final, hf⟩ := ih hrest
      exact ⟨final, by simpa only [run, hn] using hf⟩

theorem nodup_handles_of_run {l final : Ledger} {events : List Event} (hl : l.handles.Nodup)
    (h : l.run events = .ok final) : final.handles.Nodup := by
  induction events generalizing l with
  | nil =>
    cases Except.ok.inj h
    exact hl
  | cons e rest ih =>
    simp only [run] at h
    split at h
    · rename_i next hn
      obtain ⟨status, -, rfl⟩ := (step_eq_ok_iff l next e).mp hn
      exact ih (nodup_handles_put hl e.handle status) h
    · contradiction

theorem settle_eq_ok_iff {l : Ledger} (hl : l.handles.Nodup) :
    l.settle = .ok () ↔ ∀ handle, Settled (l.find? handle) := by
  induction l with
  | nil => simp [settle, find?, Settled]
  | cons entry rest ih =>
    obtain ⟨first, status⟩ := entry
    obtain ⟨fresh, hrest⟩ := List.nodup_cons.mp hl
    have hnone : find? rest first = none := (find?_eq_none_iff rest first).mpr fresh
    have split : (∀ handle, Settled (find? ((first, status) :: rest) handle)) ↔
        Settled (some status) ∧ ∀ handle, Settled (find? rest handle) := by
      constructor
      · intro h
        refine ⟨by simpa [find?_cons_self] using h first, fun handle => ?_⟩
        by_cases he : handle = first
        · subst he
          rw [hnone]
          trivial
        · simpa [find?_cons_of_ne he] using h handle
      · rintro ⟨hfirst, h⟩ handle
        by_cases he : handle = first
        · subst he
          rwa [find?_cons_self]
        · rw [find?_cons_of_ne he]
          exact h handle
    rw [split, ← ih hrest]
    cases status with
    | counted uses releases => by_cases h : releases = 1 <;> simp [settle, Settled, h]
    | allocated transfers => by_cases h : transfers = 1 <;> simp [settle, Settled, h]

end Ledger

/-! Which events on one handle leave it settled. -/

@[simp] theorem act_consume_counted (handle user : String) (uses releases : Nat) :
    (Event.consume handle user).act (some (.counted uses releases)) =
      if releases = 0 then some (.counted (uses + 1) releases) else none := by
  by_cases h : releases = 0 <;> simp [Event.act, Ledger.advance, Except.toOption, h]

@[simp] theorem act_release_counted (handle : String) (uses releases : Nat) :
    (Event.release handle).act (some (.counted uses releases)) =
      if uses = 0 then none else some (.counted uses (releases + 1)) := by
  by_cases h : uses = 0 <;> simp [Event.act, Ledger.advance, Except.toOption, h]

theorem follow_released {uses releases : Nat} {events : List Event} {status : Option Status}
    (h : follow (some (.counted uses (releases + 1))) events = some status) :
    status = some (.counted uses (releases + 1 + events.length)) := by
  induction events generalizing releases with
  | nil => exact (Option.some.inj h).symm
  | cons e rest ih =>
    cases e with
    | release handle =>
      by_cases hu : uses = 0
      · simp [follow, hu] at h
      · rw [ih (by simpa [follow, hu] using h), List.length_cons]
        congr 2
        omega
    | _ => simp [follow, Event.act, Ledger.advance, Except.toOption] at h

theorem follow_allocated {transfers : Nat} {events : List Event} {status : Option Status}
    (h : follow (some (.allocated transfers)) events = some status) :
    status = some (.allocated (transfers + events.length)) ∧
      ∀ e ∈ events, ∃ handle target, e = .transfer handle target := by
  induction events generalizing transfers with
  | nil => exact ⟨(Option.some.inj h).symm, by simp⟩
  | cons e rest ih =>
    cases e with
    | transfer handle target =>
      have hnext : follow (some (.allocated (transfers + 1))) rest = some status := h
      obtain ⟨hs, ht⟩ := ih hnext
      refine ⟨?_, by simpa using ht⟩
      rw [hs, List.length_cons]
      congr 2
      omega
    | _ => simp [follow, Event.act, Ledger.advance, Except.toOption] at h

theorem follow_counted {handle : String} {uses : Nat} {events : List Event}
    {status : Option Status} (same : ∀ e ∈ events, e.handle = handle)
    (h : follow (some (.counted uses 0)) events = some status) (settled : Settled status) :
    ∃ users : List String, events = users.map (Event.consume handle) ++ [.release handle] ∧
      0 < uses + users.length := by
  induction events generalizing uses with
  | nil =>
    cases Option.some.inj h
    simp [Settled] at settled
  | cons e rest ih =>
    have hrest := fun e' he' => same e' (List.mem_cons_of_mem e he')
    have he := same e List.mem_cons_self
    cases e with
    | consume own user =>
      have hnext : follow (some (.counted (uses + 1) 0)) rest = some status := by
        simpa [follow] using h
      obtain ⟨users, rfl, -⟩ := ih hrest hnext
      cases he
      exact ⟨user :: users, rfl, by rw [List.length_cons]; omega⟩
    | release own =>
      cases he
      by_cases hu : uses = 0
      · simp [follow, hu] at h
      · have hnext : follow (some (.counted uses (0 + 1))) rest = some status := by
          simpa [follow, hu] using h
        rw [follow_released hnext] at settled
        have hempty : rest = [] := by
          simp only [Settled] at settled
          exact List.eq_nil_of_length_eq_zero (by omega)
        exact ⟨[], by rw [hempty]; rfl, by simpa using Nat.pos_of_ne_zero hu⟩
    | _ => simp [follow, Event.act, Ledger.advance, Except.toOption] at h

theorem follow_uses (handle : String) (users : List String) (uses : Nat) (rest : List Event) :
    follow (some (.counted uses 0)) (users.map (Event.consume handle) ++ rest) =
      follow (some (.counted (uses + users.length) 0)) rest := by
  induction users generalizing uses with
  | nil => rfl
  | cons user users ih =>
    simp only [List.map_cons, List.cons_append, follow, act_consume_counted, if_true,
      Option.bind_some, ih, List.length_cons]
    congr 3
    omega

theorem balanced_iff_settled {handle : String} {events : List Event}
    (same : ∀ e ∈ events, e.handle = handle) :
    Balanced handle events ↔ ∃ status, follow none events = some status ∧ Settled status := by
  constructor
  · intro h
    cases h with
    | unused => exact ⟨none, rfl, trivial⟩
    | held users used =>
      refine ⟨some (.counted users.length 1), ?_, rfl⟩
      have hpos : users.length ≠ 0 := by simpa using used
      rw [List.cons_append, follow]
      simp only [Event.act, Option.bind_some, follow_uses]
      simp [follow, hpos]
    | handed target => exact ⟨some (.allocated 1), rfl, rfl⟩
  · rintro ⟨status, h, settled⟩
    cases events with
    | nil => exact .unused
    | cons e rest =>
      have hrest := fun e' he' => same e' (List.mem_cons_of_mem e he')
      have he := same e List.mem_cons_self
      cases e with
      | acquire own =>
        cases he
        have hnext : follow (some (.counted 0 0)) rest = some status := h
        obtain ⟨users, rfl, hpos⟩ := follow_counted hrest hnext settled
        exact .held users (by rintro rfl; simp at hpos)
      | allocate own =>
        cases he
        have hnext : follow (some (.allocated 0)) rest = some status := h
        obtain ⟨hs, ht⟩ := follow_allocated hnext
        rw [hs] at settled
        simp only [Settled] at settled
        obtain ⟨last, rfl⟩ := List.length_eq_one_iff.mp (show rest.length = 1 by omega)
        obtain ⟨own', target, rfl⟩ := ht last (by simp)
        cases hrest (.transfer own' target) (by simp)
        exact .handed target
      | _ => simp [follow, Event.act] at h

theorem handle_of_mem_on {handle : String} {events : List Event} {e : Event}
    (h : e ∈ on handle events) : e.handle = handle := by
  simpa using (List.mem_filter.mp h).2

/-- Handles are checked independently of each other. -/
theorem check_eq_ok_iff_balanced (events : List Event) :
    check events = .ok () ↔ ∀ handle, Balanced handle (on handle events) := by
  have hempty : (Ledger.handles []).Nodup := List.nodup_nil
  have hstart : ∀ handle, Ledger.find? [] handle = none := fun _ => rfl
  have hbalanced : ∀ handle, Balanced handle (on handle events) ↔
      ∃ status, follow none (on handle events) = some status ∧ Settled status :=
    fun handle => balanced_iff_settled fun e he => handle_of_mem_on he
  constructor
  · intro h handle
    simp only [check] at h
    split at h
    · rename_i final hrun
      have hn := Ledger.nodup_handles_of_run hempty hrun
      rw [hbalanced]
      exact ⟨final.find? handle, Ledger.follow_of_run hrun handle,
        (Ledger.settle_eq_ok_iff hn).mp h handle⟩
    · contradiction
  · intro h
    have hallowed : ∀ handle, (follow (Ledger.find? [] handle) (on handle events)).isSome := by
      intro handle
      obtain ⟨status, hs, -⟩ := (hbalanced handle).mp (h handle)
      rw [hstart, hs]
      rfl
    obtain ⟨final, hrun⟩ := Ledger.run_of_follow hallowed
    have hn := Ledger.nodup_handles_of_run hempty hrun
    simp only [check, hrun]
    rw [Ledger.settle_eq_ok_iff hn]
    intro handle
    obtain ⟨status, hs, settled⟩ := (hbalanced handle).mp (h handle)
    have hf := Ledger.follow_of_run hrun handle
    rw [hstart, hs] at hf
    exact Option.some.inj hf ▸ settled

def created (events : List Event) : List String := events.filterMap Event.created?

theorem count_filterMap {f : Event → Option String}
    (hf : ∀ {e handle}, f e = some handle → e.handle = handle) (handle : String)
    (events : List Event) :
    (events.filterMap f).count handle = ((on handle events).filterMap f).count handle := by
  induction events with
  | nil => rfl
  | cons e rest ih =>
    by_cases he : e.handle = handle
    · subst he
      rw [on_cons_self]
      cases hc : f e <;> simp_all
    · rw [on_cons_of_ne he, ← ih]
      cases hc : f e with
      | none => simp [hc]
      | some other =>
        have hne : other ≠ handle := hf hc ▸ he
        simp [hc, hne]

theorem handle_of_created? {e : Event} {handle : String} (h : e.created? = some handle) :
    e.handle = handle := by
  cases e <;> simp_all [Event.created?, Event.handle]

theorem count_created (handle : String) (events : List Event) :
    (created events).count handle = (created (on handle events)).count handle :=
  count_filterMap handle_of_created? handle events

theorem Balanced.count_created_le {handle : String} {events : List Event}
    (h : Balanced handle events) : (created events).count handle ≤ 1 := by
  cases h with
  | unused => simp [created]
  | held users used =>
    have hnone : (users.map (Event.consume handle)).filterMap Event.created? = [] := by
      simp [List.filterMap_map, List.filterMap_eq_nil_iff, Event.created?]
    simp [created, List.filterMap_cons, Event.created?, hnone]
  | handed target => simp [created, List.filterMap_cons, Event.created?]

theorem nodup_created {events : List Event} (h : check events = .ok ()) :
    (created events).Nodup := by
  rw [List.nodup_iff_count_le_one]
  intro handle
  rw [count_created]
  exact ((check_eq_ok_iff_balanced events).mp h handle).count_created_le

/-! What the acceptance of a ledger says of the handles in it. -/

def Event.acquired? : Event → Option String
  | acquire handle => some handle
  | _ => none

def Event.released? : Event → Option String
  | release handle => some handle
  | _ => none

theorem handle_of_acquired? {e : Event} {handle : String} (h : e.acquired? = some handle) :
    e.handle = handle := by
  cases e <;> simp_all [Event.acquired?, Event.handle]

theorem handle_of_released? {e : Event} {handle : String} (h : e.released? = some handle) :
    e.handle = handle := by
  cases e <;> simp_all [Event.released?, Event.handle]

theorem acquired_eq (events : List Event) :
    acquired events = (events.filterMap Event.acquired?).length := by
  rw [List.length_filterMap_eq_countP]
  unfold acquired
  congr 1
  funext e
  cases e <;> rfl

theorem released_eq (events : List Event) :
    released events = (events.filterMap Event.released?).length := by
  rw [List.length_filterMap_eq_countP]
  unfold released
  congr 1
  funext e
  cases e <;> rfl

theorem Balanced.count_acquired {handle : String} {events : List Event}
    (h : Balanced handle events) :
    (events.filterMap Event.acquired?).count handle =
      (events.filterMap Event.released?).count handle := by
  cases h with
  | unused => rfl
  | held users used =>
    -- Uses neither acquire nor release.
    have hacquired : (users.map (Event.consume handle)).filterMap Event.acquired? = [] := by
      simp [List.filterMap_map, List.filterMap_eq_nil_iff, Event.acquired?]
    have hreleased : (users.map (Event.consume handle)).filterMap Event.released? = [] := by
      simp [List.filterMap_map, List.filterMap_eq_nil_iff, Event.released?]
    simp [List.filterMap_cons, Event.acquired?, Event.released?, hacquired, hreleased]
  | handed target => simp [List.filterMap_cons, Event.acquired?, Event.released?]

theorem acquired_perm_released {events : List Event} (h : check events = .ok ()) :
    (events.filterMap Event.acquired?).Perm (events.filterMap Event.released?) := by
  rw [List.perm_iff_count]
  intro handle
  rw [count_filterMap handle_of_acquired?, count_filterMap handle_of_released?]
  exact ((check_eq_ok_iff_balanced events).mp h handle).count_acquired

theorem on_eq_nil_iff {handle : String} {events : List Event} :
    on handle events = [] ↔ handle ∉ events.map Event.handle := by
  simp [on, List.filter_eq_nil_iff]

theorem balanced_iff {handle : String} {events : List Event} :
    Balanced handle events ↔ events = [] ∨
      (∃ users : List String, users ≠ [] ∧
        events = .acquire handle :: users.map (.consume handle) ++ [.release handle]) ∨
      ∃ target, events = [.allocate handle, .transfer handle target] := by
  constructor
  · rintro (_ | ⟨users, used⟩ | target)
    · exact .inl rfl
    · exact .inr (.inl ⟨users, used, rfl⟩)
    · exact .inr (.inr ⟨target, rfl⟩)
  · rintro (rfl | ⟨users, used, rfl⟩ | ⟨target, rfl⟩)
    · exact .unused
    · exact .held users used
    · exact .handed target

/-- A ledger is accepted exactly if each handle in it is acquired, used at least once and then
released once, or is allocated and then transferred once. So as many handles are released as are
acquired, and what is done to other handles in between does not matter. -/
theorem check_decides_by_handle (events : List Event) :
    (check events = .ok () ↔ ∀ handle ∈ events.map Event.handle,
      (∃ users : List String, users ≠ [] ∧ on handle events =
        .acquire handle :: users.map (.consume handle) ++ [.release handle]) ∨
      ∃ target, on handle events = [.allocate handle, .transfer handle target]) ∧
    (check events = .ok () → acquired events = released events) ∧
    ∀ others : List Event, (∀ handle, on handle others = on handle events) →
      (check others = .ok () ↔ check events = .ok ()) := by
  refine ⟨?_, ?_, ?_⟩
  · simp only [check_eq_ok_iff_balanced, balanced_iff, on_eq_nil_iff, ← imp_iff_not_or]
  · intro h
    rw [acquired_eq, released_eq]
    exact (acquired_perm_released h).length_eq
  · intro others h
    simp only [check_eq_ok_iff_balanced, h]

def woven : List Event :=
  [.acquire "name", .allocate "list", .consume "name" "copy", .transfer "list" "type",
    .consume "name" "declare", .release "name"]

def unwoven : List Event :=
  [.allocate "list", .transfer "list" "type", .acquire "name", .consume "name" "copy",
    .consume "name" "declare", .release "name"]

theorem check_decides_by_handle_woven :
    check woven = .ok () ∧ acquired woven = released woven ∧
      (∀ handle, on handle unwoven = on handle woven) ∧ check unwoven = .ok () := by
  obtain ⟨hcheck, hcount, hothers⟩ := check_decides_by_handle woven
  have hwoven : check woven = .ok () := by
    rw [hcheck]
    intro handle hmem
    have hhandle : handle = "name" ∨ handle = "list" := by
      simp only [woven, List.map_cons, List.map_nil, Event.handle, List.mem_cons,
        List.not_mem_nil, or_false] at hmem
      tauto
    rcases hhandle with rfl | rfl
    · exact .inl ⟨["copy", "declare"], by decide, by decide⟩
    · exact .inr ⟨"type", by decide⟩
  have hsame : ∀ handle, on handle unwoven = on handle woven := by
    intro handle
    by_cases hname : "name" = handle
    · subst hname
      decide
    · by_cases hlist : "list" = handle <;>
        simp [on, woven, unwoven, Event.handle, hname, hlist]
  exact ⟨hwoven, hcount hwoven, hsame, (hothers unwoven hsame).mpr hwoven⟩

end ExtensionHeader.Ownership
