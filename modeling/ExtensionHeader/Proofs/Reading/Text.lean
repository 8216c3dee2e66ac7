import ExtensionHeader.Proofs.Naming
import Mathlib.Data.Bool.AllAny

/-! Parts of generated text: what stands between two given texts, numbers, and lists that are read
part by part. -/
namespace ExtensionHeader.Reading

/-- What stands behind `front` and before `back` if the text begins and ends with them. -/
def between? (front back : String) (text : List Char) : Option (List Char) := do
  let rest ← text.dropPrefix? front.toList
  rest.dropSuffix? back.toList

def number? (text : List Char) : Option Nat :=
  if text ≠ [] ∧ text.all Char.isDigit then some (Nat.ofDigitChars 10 text 0) else none

theorem between?_append (front back : String) (inner : List Char) :
    between? front back (front.toList ++ (inner ++ back.toList)) = some inner := by
  have hsuffix : (inner ++ back.toList).dropSuffix? back.toList = some inner :=
    List.dropSuffix?_eq_some_iff.mpr ⟨back.toList, rfl, beq_self_eq_true _⟩
  unfold between?
  rw [List.dropPrefix?_append_of_beq _ (beq_self_eq_true _)]
  exact hsuffix

theorem toList_toString (n : Nat) : (toString n).toList = Nat.toDigits 10 n := by
  rw [Nat.toString_eq_ofList_toDigits, String.toList_ofList]

theorem isDigit_of_mem_toDigits {n : Nat} {c : Char} (h : c ∈ Nat.toDigits 10 n) :
    c.isDigit = true :=
  Nat.isDigit_of_mem_toDigits (by decide) (by decide) h

theorem isDigit_of_mem_toString {n : Nat} {c : Char} (h : c ∈ (toString n).toList) :
    c.isDigit = true :=
  isDigit_of_mem_toDigits (toList_toString n ▸ h)

theorem number?_of_digits {digits : List Char} (hne : digits ≠ [])
    (h : ∀ c ∈ digits, c.isDigit = true) :
    number? digits = some (Nat.ofDigitChars 10 digits 0) :=
  if_pos ⟨hne, List.all_eq_true.mpr h⟩

theorem number?_toDigits (n : Nat) : number? (Nat.toDigits 10 n) = some n := by
  rw [number?_of_digits Nat.toDigits_ne_nil fun _ => isDigit_of_mem_toDigits,
    Nat.ofDigitChars_ten_toDigits]

theorem number?_toString (n : Nat) : number? (toString n).toList = some n := by
  rw [toList_toString, number?_toDigits]

theorem forall_mem_intercalate {P : Char → Prop} {separator : String} {parts : List String}
    (hs : ∀ c ∈ separator.toList, P c) (hparts : ∀ part ∈ parts, ∀ c ∈ part.toList, P c) :
    ∀ c ∈ (separator.intercalate parts).toList, P c := by
  induction parts with
  | nil => exact fun c hc => absurd hc List.not_mem_nil
  | cons part rest ih =>
    obtain ⟨hpart, hrest⟩ := List.forall_mem_cons.mp hparts
    cases rest with
    | nil => rwa [String.intercalate_singleton]
    | cons next rest =>
      rw [String.intercalate_cons_cons, String.toList_append, String.toList_append,
        List.forall_mem_append, List.forall_mem_append]
      exact ⟨⟨hpart, hs⟩, ih hrest⟩

theorem forall_ne_of_not_mem {text : List Char} {d : Char} (h : d ∉ text) :
    ∀ c ∈ text, decide (c ≠ d) = true :=
  fun _ hc => decide_eq_true fun heq => h (heq ▸ hc)

section stop

variable {p : Char → Bool} {text : List Char} {d : Char}

theorem takeWhile_stop (h : ∀ c ∈ text, p c = true) (hd : p d = false) (rest : List Char) :
    (text ++ d :: rest).takeWhile p = text := by
  rw [List.takeWhile_append_of_pos h, List.takeWhile_cons_of_neg (by simp [hd]),
    List.append_nil]

theorem dropWhile_stop (h : ∀ c ∈ text, p c = true) (hd : p d = false) (rest : List Char) :
    (text ++ d :: rest).dropWhile p = d :: rest := by
  rw [List.dropWhile_append_of_pos h, List.dropWhile_cons_of_neg (by simp [hd])]

end stop

theorem mapM_map {f : α → β} {g : β → Option γ} {h : α → γ} {xs : List α}
    (hxs : ∀ x ∈ xs, g (f x) = some (h x)) : (xs.map f).mapM g = some (xs.map h) := by
  induction xs with
  | nil => rfl
  | cons x rest ih =>
    have hrest := ih fun y hy => hxs y (List.mem_cons_of_mem x hy)
    rw [List.map_cons, List.mapM_cons, hxs x List.mem_cons_self, hrest]
    rfl

theorem lookup_map_of_nodup [BEq κ] [LawfulBEq κ] {key : α → κ} {xs : List α}
    (h : (xs.map key).Nodup) {x : α} (hx : x ∈ xs) :
    (xs.map fun y => (key y, y)).lookup (key x) = some x := by
  induction xs with
  | nil => exact absurd hx List.not_mem_nil
  | cons y rest ih =>
    rw [List.map_cons, List.nodup_cons] at h
    rw [List.map_cons]
    rcases List.mem_cons.mp hx with rfl | hx
    · exact List.lookup_cons_self
    · have hne : (key x == key y) = false := by
        rw [beq_eq_false_iff_ne]
        intro heq
        exact h.1 (heq ▸ List.mem_map_of_mem hx)
      rw [List.lookup_cons, hne]
      exact ih h.2 hx

end ExtensionHeader.Reading
