import ExtensionHeader.Hierarchy
import Mathlib.Logic.Relation

/-! The exploration of a finite graph finds what a path leads to. A visited node is taken out of the
graph, which loses nothing: a path through it can be replaced by its last piece, which starts at one
of the successors of the node. -/
namespace ExtensionHeader.Reachability

variable [DecidableEq α] {next : α → List α}

def Step (next : α → List α) (nodes : List α) (a b : α) : Prop := b ∈ next a ∧ b ∈ nodes

/-- A path inside `nodes` leads from the frontier to `y`. -/
def Leads (next : α → List α) (nodes frontier : List α) (y : α) : Prop :=
  ∃ x ∈ frontier, x ∈ nodes ∧ Relation.ReflTransGen (Step next nodes) x y

section Leads

variable {nodes frontier rest : List α} {x y : α}

theorem Leads.of_erase (hx : x ∈ nodes) (h : Leads next (nodes.erase x) (next x ++ rest) y) :
    Leads next nodes (x :: rest) y := by
  obtain ⟨z, hz, hzn, hpath⟩ := h
  have hnodes := List.mem_of_mem_erase hzn
  have hmono : Relation.ReflTransGen (Step next nodes) z y :=
    Relation.ReflTransGen.mono
      (fun _ _ hstep => ⟨hstep.1, List.mem_of_mem_erase hstep.2⟩) _ _ hpath
  rcases List.mem_append.mp hz with hz | hz
  · exact ⟨x, List.mem_cons_self, hx, hmono.head ⟨hz, hnodes⟩⟩
  · exact ⟨z, List.mem_cons_of_mem x hz, hnodes, hmono⟩

theorem Leads.erase (h : Leads next nodes (x :: rest) y) :
    y = x ∨ Leads next (nodes.erase x) (next x ++ rest) y := by
  obtain ⟨z, hz, hzn, hpath⟩ := h
  induction hpath with
  | refl =>
    by_cases hzx : z = x
    · exact .inl hzx
    · have hrest := (List.mem_cons.mp hz).resolve_left hzx
      exact .inr ⟨z, List.mem_append_right _ hrest, (List.mem_erase_of_ne hzx).mpr hzn, .refl⟩
  | @tail w v _ hstep ih =>
    by_cases hvx : v = x
    · exact .inl hvx
    · have hv := (List.mem_erase_of_ne hvx).mpr hstep.2
      rcases ih with rfl | ⟨u, hu, hun, hwalk⟩
      · exact .inr ⟨v, List.mem_append_left _ hstep.1, hv, .refl⟩
      · exact .inr ⟨u, hu, hun, hwalk.tail ⟨hstep.1, hv⟩⟩

theorem leads_cons_iff (hx : x ∈ nodes) :
    Leads next nodes (x :: rest) y ↔
      y = x ∨ Leads next (nodes.erase x) (next x ++ rest) y := by
  constructor
  · exact Leads.erase
  · rintro (rfl | h)
    · exact ⟨y, List.mem_cons_self, hx, .refl⟩
    · exact h.of_erase hx

theorem leads_dropWhile_iff :
    Leads next nodes (frontier.dropWhile (· ∉ nodes)) y ↔ Leads next nodes frontier y := by
  induction frontier with
  | nil => rfl
  | cons z rest ih =>
    by_cases hz : z ∈ nodes
    · rw [List.dropWhile_cons_of_neg (by simpa using hz)]
    · rw [List.dropWhile_cons_of_pos (by simpa using hz), ih]
      unfold Leads
      simp [hz]

end Leads

theorem mem_visit_iff {budget : Nat} {unseen frontier : List α} (h : unseen.length ≤ budget)
    (y : α) : y ∈ visit next budget unseen frontier ↔ Leads next unseen frontier y := by
  induction budget generalizing unseen frontier with
  | zero =>
    cases List.length_eq_zero_iff.mp (Nat.le_zero.mp h)
    simp [visit, Leads]
  | succ budget ih =>
    rw [← leads_dropWhile_iff]
    unfold visit
    cases hfrontier : frontier.dropWhile (· ∉ unseen) with
    | nil => simp [Leads]
    | cons x rest =>
      have hhead := List.head?_dropWhile_not (· ∉ unseen) frontier
      rw [hfrontier] at hhead
      have hx : x ∈ unseen := by simpa using hhead
      have hlength := List.length_erase_of_mem hx
      rw [List.mem_cons, ih (by omega), leads_cons_iff hx]

theorem mem_explore_iff (nodes frontier : List α) (y : α) :
    y ∈ explore next nodes frontier ↔ Leads next nodes frontier y :=
  mem_visit_iff (Nat.le_refl _) y

/-- In a graph without links to the outside, what is found from the successors of a node is what a
path of at least one link leads to. -/
theorem mem_explore_next_iff {nodes : List α} (closed : ∀ a, ∀ b ∈ next a, b ∈ nodes) (x y : α) :
    y ∈ explore next nodes (next x) ↔ Relation.TransGen (fun a b => b ∈ next a) x y := by
  have hstep : Step next nodes = fun a b => b ∈ next a := by
    funext a b
    exact propext ⟨And.left, fun h => ⟨h, closed a b h⟩⟩
  rw [mem_explore_iff, Relation.TransGen.head'_iff]
  unfold Leads
  rw [hstep]
  constructor
  · rintro ⟨z, hz, -, hpath⟩
    exact ⟨z, hz, hpath⟩
  · rintro ⟨z, hz, hpath⟩
    exact ⟨z, hz, closed x z hz, hpath⟩

end ExtensionHeader.Reachability
