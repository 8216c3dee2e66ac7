import ExtensionHeader.Proofs.Naming
import ExtensionHeader.Proofs.Typing
import ExtensionHeader.Text

/-! How the engine reads the texts that stand for scalar types: names of masks joined by bars, codes
of types, and digits for nullability. The values are those of the engine's own header files. -/
namespace ExtensionHeader

/-! Readers of generated text, and what they read back. -/
namespace Reading

/-- What the names in a mask expression stand for. -/
def maskValues : List (String × BitVec 32) :=
  [("0", 0x0), ("MAY_BE_NULL", 0x2), ("MAY_BE_FALSE", 0x4), ("MAY_BE_TRUE", 0x8),
    ("MAY_BE_BOOL", 0xc), ("MAY_BE_LONG", 0x10), ("MAY_BE_DOUBLE", 0x20),
    ("MAY_BE_STRING", 0x40), ("MAY_BE_ARRAY", 0x80), ("MAY_BE_OBJECT", 0x100),
    ("MAY_BE_RESOURCE", 0x200), ("MAY_BE_ANY", 0x3fe), ("MAY_BE_CALLABLE", 0x1000),
    ("MAY_BE_VOID", 0x4000)]

def codeValues : List (String × BitVec 32) :=
  [("IS_NULL", 0x2), ("_IS_BOOL", 0xc), ("IS_LONG", 0x10), ("IS_DOUBLE", 0x20),
    ("IS_STRING", 0x40), ("IS_ARRAY", 0x80), ("IS_OBJECT", 0x100), ("IS_CALLABLE", 0x1000),
    ("IS_VOID", 0x4000), ("IS_MIXED", 0x3fe)]

def maskOf? : List (List Char) → Option TypeMask
  | [] => some .empty
  | name :: rest => do
    let bits ← maskValues.lookup (String.ofList name)
    let others ← maskOf? rest
    return ⟨bits⟩ ∪ others

def mask? (text : List Char) : Option TypeMask := maskOf? (text.splitOn '|')

def code? (text : List Char) : Option TypeMask :=
  (codeValues.lookup (String.ofList text)).map TypeMask.mk

def nullable? : List Char → Option TypeMask
  | ['0'] => some .empty
  | ['1'] => some .null
  | _ => none

theorem code?_display (kind : Scalar) : code? kind.code.display.toList = some kind.mask := by
  cases kind <;> decide

theorem nullable?_bit (b : Bool) :
    nullable? (Text.bit b).toList = some (if b then .null else .empty) := by
  cases b <;> decide

end Reading

namespace TypeMask

open Reading

def leftover : List (TypeMask × String) → TypeMask → TypeMask
  | [], m => m
  | (part, _) :: rest, m =>
    if m.contains part then leftover rest (m \ part) else leftover rest m

theorem has_of_has_leftover {parts : List (TypeMask × String)} {m : TypeMask} {i : Nat}
    (h : (leftover parts m).has i = true) : m.has i = true := by
  induction parts generalizing m with
  | nil => exact h
  | cons part rest ih =>
    unfold leftover at h
    split at h
    · have hrest := ih h
      rw [has_difference, Bool.and_eq_true] at hrest
      exact hrest.1
    · exact ih h

theorem not_has_leftover {parts : List (TypeMask × String)} {part : TypeMask × String}
    {code : TypeCode} (hpart : part ∈ parts) (hcode : part.1 = ofCode code) (m : TypeMask) :
    (leftover parts m).has code.value = false := by
  rw [← Bool.not_eq_true]
  intro h
  induction parts generalizing m with
  | nil => exact absurd hpart List.not_mem_nil
  | cons first rest ih =>
    unfold leftover at h
    rcases List.mem_cons.mp hpart with rfl | hpart
    · rw [hcode, contains_ofCode] at h
      split at h
      · have hrest := has_of_has_leftover h
        simp at hrest
      · rename_i hnot
        exact hnot (has_of_has_leftover h)
    · split at h
      · exact ih hpart _ h
      · exact ih hpart _ h

theorem maskOf?_decompose {parts : List (TypeMask × String)}
    (h : ∀ part ∈ parts, maskValues.lookup part.2 = some part.1.bits) (m : TypeMask) :
    ∃ taken, maskOf? ((decompose parts m).map String.toList) = some taken ∧
      taken ∪ leftover parts m = m := by
  induction parts generalizing m with
  | nil =>
    exact ⟨.empty, rfl, empty_union m⟩
  | cons part rest ih =>
    have hrest : ∀ p ∈ rest, maskValues.lookup p.2 = some p.1.bits :=
      fun p hp => h p (List.mem_cons_of_mem part hp)
    unfold decompose leftover
    cases hcontains : m.contains part.1 with
    | false =>
      rw [if_neg Bool.false_ne_true, if_neg Bool.false_ne_true]
      exact ih hrest m
    | true =>
      obtain ⟨taken, htaken, hunion⟩ := ih hrest (m \ part.1)
      refine ⟨part.1 ∪ taken, ?_, ?_⟩
      · rw [if_pos rfl, List.map_cons]
        simp only [maskOf?, String.ofList_toList, h part List.mem_cons_self, htaken]
        rfl
      · rw [if_pos rfl]
        apply ext_has
        intro i
        have hbit := congrArg (TypeMask.has · i) hunion
        simp only [has_union, has_difference] at hbit
        rw [has_union, has_union, Bool.or_assoc, hbit]
        have hpart := contains_iff.mp hcontains i
        cases hp : part.1.has i with
        | false => simp
        | true => simp [hpart hp]

theorem Named.leftover_names {m : TypeMask} (h : m.Named) : leftover names m = empty := by
  have hnames : ∀ code ∈ named, ∃ part ∈ names, part.1 = ofCode code := by decide
  apply ext_has
  intro i
  rw [has_empty, ← Bool.not_eq_true]
  intro hi
  rcases h i (has_of_has_leftover hi) with ⟨code, hcode, rfl⟩ | ⟨rfl, hany⟩
  · obtain ⟨part, hpart, heq⟩ := hnames code hcode
    rw [not_has_leftover hpart heq] at hi
    contradiction
  · -- All values have the first name, which takes the resources away.
    unfold names leftover at hi
    rw [if_pos hany] at hi
    have hrest := has_of_has_leftover hi
    rw [has_difference, has_any] at hrest
    simp [TypeCode.value] at hrest

theorem decompose_sublist (parts : List (TypeMask × String)) (m : TypeMask) :
    (decompose parts m).Sublist (parts.map Prod.snd) := by
  induction parts generalizing m with
  | nil => exact List.Sublist.slnil
  | cons part rest ih =>
    unfold decompose
    rw [List.map_cons]
    split
    · exact (ih _).cons_cons part.2
    · exact (ih m).cons part.2

theorem isContinuation_of_mem_decompose {m : TypeMask} {name : String}
    (h : name ∈ decompose names m) : ∀ c ∈ name.toList, Identifier.isContinuation c = true := by
  have hnames : ∀ name ∈ names.map Prod.snd,
      name.toList.all Identifier.isContinuation = true := by decide
  exact List.all_eq_true.mp (hnames name ((decompose_sublist names m).subset h))

theorem mem_expression {m : TypeMask} {c : Char} (h : c ∈ m.expression.toList) :
    Identifier.isContinuation c = true ∨ c = '|' := by
  unfold expression at h
  split at h
  · rw [show "0".toList = ['0'] from rfl, List.mem_singleton] at h
    rw [h]
    exact .inl (by decide)
  · rw [show "|" = String.singleton '|' from rfl] at h
    rcases QualifiedName.mem_intercalate h with hc | ⟨name, hname, hc⟩
    · exact .inr hc
    · exact .inl (isContinuation_of_mem_decompose hname c hc)

/-- The values of the names make up the mask. -/
theorem Named.maskOf?_names {m : TypeMask} (h : m.Named) :
    maskOf? ((decompose names m).map String.toList) = some m := by
  have hvalues : ∀ part ∈ names, maskValues.lookup part.2 = some part.1.bits := by decide
  obtain ⟨taken, htaken, hunion⟩ := maskOf?_decompose hvalues m
  rw [h.leftover_names, union_empty] at hunion
  rw [htaken, hunion]

theorem Named.decompose_ne_nil {m : TypeMask} (h : m.Named) (hempty : ¬ m.isEmpty = true) :
    decompose names m ≠ [] := by
  intro hnil
  have hread := h.maskOf?_names
  rw [hnil] at hread
  exact hempty (isEmpty_iff.mpr (Option.some.inj hread).symm)

theorem mask?_expression {m : TypeMask} (h : m.Named) : mask? m.expression.toList = some m := by
  unfold expression
  split
  · rename_i hempty
    rw [isEmpty_iff.mp hempty]
    decide
  · rename_i hempty
    have hbar : ∀ name ∈ (decompose names m).map String.toList, '|' ∉ name := by
      intro name hname hmem
      obtain ⟨s, hs, rfl⟩ := List.mem_map.mp hname
      exact absurd (isContinuation_of_mem_decompose hs _ hmem) (by decide)
    have hne : (decompose names m).map String.toList ≠ [] := by
      intro hnil
      exact h.decompose_ne_nil hempty (List.map_eq_nil_iff.mp hnil)
    have hsplit := List.splitOn_intercalate '|' hbar hne
    unfold mask?
    rw [String.toList_intercalate, show "|".toList = ['|'] from rfl, hsplit, h.maskOf?_names]

end TypeMask

end ExtensionHeader
