/-! Traversals of a list in which each element sees the elements before it, and the choice of one
representative per key. Duplicate checks, collision checks and sharing are all of this shape. -/
namespace ExtensionHeader.Sequence

/-- `f earlier x` for each element `x`, where `earlier` lists what stands before it, in order,
starting from the given elements. -/
def mapEarlierFrom (f : List α → α → β) : List α → List α → List β
  | _, [] => []
  | earlier, x :: rest => f earlier x :: mapEarlierFrom f (earlier ++ [x]) rest

def mapEarlier (f : List α → α → β) (xs : List α) : List β := mapEarlierFrom f [] xs

def flatMapEarlier (f : List α → α → List β) (xs : List α) : List β := (mapEarlier f xs).flatten

@[simp] theorem length_mapEarlierFrom (f : List α → α → β) (earlier xs : List α) :
    (mapEarlierFrom f earlier xs).length = xs.length := by
  induction xs generalizing earlier with
  | nil => rfl
  | cons x rest ih => simp [mapEarlierFrom, ih]

theorem mapEarlierFrom_append (f : List α → α → β) (earlier xs ys : List α) :
    mapEarlierFrom f earlier (xs ++ ys) =
      mapEarlierFrom f earlier xs ++ mapEarlierFrom f (earlier ++ xs) ys := by
  induction xs generalizing earlier with
  | nil => simp [mapEarlierFrom]
  | cons x rest ih => simp [mapEarlierFrom, ih]

def firstBy [DecidableEq κ] (key : α → κ) (xs : List α) : List α :=
  xs.eraseDupsBy fun x y => key x = key y

@[simp] theorem firstBy_nil [DecidableEq κ] (key : α → κ) : firstBy key [] = [] := rfl

theorem firstBy_cons [DecidableEq κ] (key : α → κ) (x : α) (rest : List α) :
    firstBy key (x :: rest) = x :: firstBy key (rest.filter fun y => key y ≠ key x) := by
  simp [firstBy, List.eraseDupsBy_cons]

/-- Induction along the choice of representatives: after an element those with its key are dropped. -/
@[elab_as_elim]
theorem firstBy_induction [DecidableEq κ] (key : α → κ) {motive : List α → Prop} (nil : motive [])
    (cons : ∀ x rest, motive (rest.filter fun y => key y ≠ key x) → motive (x :: rest))
    (xs : List α) : motive xs := by
  induction hn : xs.length using Nat.strongRecOn generalizing xs with
  | ind n ih =>
    cases xs with
    | nil => exact nil
    | cons x rest =>
      have shorter := List.length_filter_le (fun y => decide (key y ≠ key x)) rest
      exact cons x rest (ih _ (by simp only [List.length_cons] at hn; omega) _ rfl)

theorem sublist_firstBy [DecidableEq κ] (key : α → κ) (xs : List α) :
    (firstBy key xs).Sublist xs := by
  induction xs using firstBy_induction key with
  | nil => exact .slnil
  | cons x rest ih =>
    rw [firstBy_cons]
    exact (ih.trans List.filter_sublist).cons_cons x

theorem mem_of_mem_firstBy [DecidableEq κ] {key : α → κ} {xs : List α} {x : α}
    (h : x ∈ firstBy key xs) : x ∈ xs :=
  (sublist_firstBy key xs).subset h

end ExtensionHeader.Sequence
