import ExtensionHeader.AccessFlags
import ExtensionHeader.Proofs.Reading.Form
import ExtensionHeader.Proofs.Reading.Lines
import ExtensionHeader.Proofs.Reading.Mask

/-! What is written as one line is one line of the text. Newlines and tabs in declared texts are
escaped in literals, and everything else is made of words, numbers and fixed texts. -/
namespace ExtensionHeader

open Reading

namespace Text

def isLayout (c : Char) : Bool := c == '\n' || c == '\t'

theorem isLayout_eq_false {p : Char → Bool} (hnewline : p '\n' = false) (htab : p '\t' = false)
    {c : Char} (h : p c = true) : isLayout c = false := by
  unfold isLayout
  rw [Bool.or_eq_false_iff, beq_eq_false_iff_ne, beq_eq_false_iff_ne]
  constructor
  · rintro rfl
    exact absurd h (Bool.eq_false_iff.mp hnewline)
  · rintro rfl
    exact absurd h (Bool.eq_false_iff.mp htab)

/-- The text is one line, without its indentation. -/
def IsLine (s : String) : Prop := ∀ c ∈ s.toList, isLayout c = false

instance (s : String) : Decidable (IsLine s) :=
  decidable_of_iff (s.toList.all (!isLayout ·) = true) (by simp [IsLine])

@[simp] theorem isLine_append {s t : String} : IsLine (s ++ t) ↔ IsLine s ∧ IsLine t := by
  unfold IsLine
  rw [String.toList_append]
  exact List.forall_mem_append

theorem isLine_of_isWord {s : String} (h : IsWord s) : IsLine s :=
  fun c hc => isLayout_eq_false (by decide) (by decide) (h c hc)

theorem isLine_intercalate {separator : String} {parts : List String} (hs : IsLine separator)
    (hparts : ∀ part ∈ parts, IsLine part) : IsLine (separator.intercalate parts) :=
  forall_mem_intercalate hs hparts

@[simp] theorem isLine_bit (b : Bool) : IsLine (bit b) := by
  cases b <;> decide

@[simp] theorem isLine_repr (n : Nat) : IsLine n.repr :=
  fun _ hc => isLayout_eq_false (by decide) (by decide) (isDigit_of_mem_toString hc)

@[simp] theorem isLine_intToString (n : Int) : IsLine (toString n) := by
  cases n with
  | ofNat n => exact isLine_repr n
  | negSucc n =>
    have htext : toString (Int.negSucc n) = "-" ++ toString (n + 1) := rfl
    rw [htext, isLine_append]
    exact ⟨by decide, isLine_repr (n + 1)⟩

theorem isLayout_of_mem_escape {b : UInt8} : ∀ c ∈ CLiteral.escape b, isLayout c = false := by
  have hall : ∀ n < 256, (CLiteral.escape (UInt8.ofNat n)).all (!isLayout ·) = true := by
    decide +kernel
  have hb := hall b.toNat b.toNat_lt
  rw [UInt8.ofNat_toNat] at hb
  simpa using hb

@[simp] theorem isLine_quote (s : String) : IsLine (CLiteral.quote s) := by
  unfold IsLine CLiteral.quote
  rw [String.toList_ofList]
  simp only [List.cons_append, List.forall_mem_cons, List.forall_mem_append, List.forall_mem_flatMap]
  exact ⟨rfl, fun _ _ => isLayout_of_mem_escape, rfl, fun _ h => absurd h List.not_mem_nil⟩

/-! Written as a line, such a text is found again in the text that it is part of. A tab only matters
at its beginning, where it would be taken for indentation. -/

def Unbroken (s : String) : Prop := '\n' ∉ s.toList

instance (s : String) : Decidable (Unbroken s) := inferInstanceAs (Decidable (¬ _))

@[simp] theorem unbroken_append {s t : String} : Unbroken (s ++ t) ↔ Unbroken s ∧ Unbroken t := by
  unfold Unbroken
  rw [String.toList_append, List.mem_append, not_or]

theorem unbroken_intercalate {separator : String} {parts : List String} (hs : Unbroken separator)
    (hparts : ∀ part ∈ parts, Unbroken part) : Unbroken (separator.intercalate parts) := by
  have hne : ∀ c ∈ (separator.intercalate parts).toList, c ≠ '\n' :=
    forall_mem_intercalate (fun c hc heq => hs (heq ▸ hc))
      fun part hpart c hc heq => hparts part hpart (heq ▸ hc)
  exact fun hmem => hne _ hmem rfl

theorem IsLine.unbroken {s : String} (h : IsLine s) : Unbroken s :=
  fun hmem => absurd (h _ hmem) (by decide)

structure Stands (s : String) : Prop where
  unbroken : Unbroken s
  flush : s.toList.head? ≠ some '\t'

theorem IsLine.stands {s : String} (h : IsLine s) : Stands s where
  unbroken := h.unbroken
  flush := fun hhead => absurd (h _ (List.mem_of_head? hhead)) (by decide)

theorem stands_append {s t : String} (hs : Stands s) (hne : s.toList ≠ []) (ht : Unbroken t) :
    Stands (s ++ t) where
  unbroken := unbroken_append.mpr ⟨hs.unbroken, ht⟩
  flush := by
    rw [String.toList_append, List.head?_append_of_ne_nil _ hne]
    exact hs.flush

theorem flush_written {l : Line} (h : l.text.toList.head? ≠ some '\t') :
    flush l.written = l.text := by
  unfold flush Line.written
  rw [String.toList_append, toList_pushn, List.dropWhile_append_of_pos]
  · cases hl : l.text.toList with
    | nil => rw [List.dropWhile_nil, ← hl, String.ofList_toList]
    | cons c rest =>
      have htab : c ≠ '\t' := fun heq => h (by rw [hl, List.head?_cons, heq])
      rw [List.dropWhile_cons_of_neg (by simp [htab]), ← hl, String.ofList_toList]
  · intro c hc
    rw [List.eq_of_mem_replicate hc]
    rfl

theorem lines_written {l : Line} (h : Unbroken l.text) : lines l.written = [l.written] := by
  apply lines_of_not_mem
  unfold Line.written
  rw [String.toList_append, toList_pushn, List.mem_append, not_or]
  refine ⟨?_, h⟩
  intro hmem
  exact absurd (List.eq_of_mem_replicate hmem) (by decide)

theorem flush_lines_renderAll {ls : List Line} (h : ∀ l ∈ ls, Stands l.text) :
    (lines (Line.renderAll ls)).map flush = ls.map (·.text) ++ [""] := by
  rw [Line.lines_renderAll, List.map_append]
  congr 1
  induction ls with
  | nil => rfl
  | cons l rest ih =>
    obtain ⟨hl, hrest⟩ := List.forall_mem_cons.mp h
    rw [List.flatMap_cons, List.map_append, ih hrest, lines_written hl.unbroken,
      List.map_singleton, flush_written hl.flush]
    rfl

end Text

open Text

/-! Numbers, masks and flags. -/

namespace Decimal

theorem isLayout_of_mem_digits {d : Decimal} : ∀ c ∈ d.digits, isLayout c = false := by
  have hall : ∀ c ∈ Nat.toDigits 10 d.coefficient, isLayout c = false := fun c hc =>
    isLayout_eq_false (by decide) (by decide)
      (Nat.isDigit_of_mem_toDigits (by decide) (by decide) hc)
  unfold digits
  dsimp only
  split
  · exact List.forall_mem_singleton.mpr rfl
  · intro c hc
    rw [List.mem_reverse] at hc
    exact hall c (List.mem_reverse.mp ((List.dropWhile_sublist _).subset hc))

theorem isLayout_of_mem_positional {digits : List Char} (h : ∀ c ∈ digits, isLayout c = false)
    (point : Int) : ∀ c ∈ positional digits point, isLayout c = false := by
  have hzeros : ∀ n, ∀ c ∈ List.replicate n '0', isLayout c = false := fun n c hc =>
    List.eq_of_mem_replicate hc ▸ rfl
  have htake : ∀ n, ∀ c ∈ digits.take n, isLayout c = false := fun _ c hc =>
    h c (List.mem_of_mem_take hc)
  have hdrop : ∀ n, ∀ c ∈ digits.drop n, isLayout c = false := fun _ c hc =>
    h c (List.mem_of_mem_drop hc)
  unfold positional
  split
  · simp only [List.cons_append, List.forall_mem_cons, List.forall_mem_append]
    exact ⟨by decide, by decide, hzeros _, h⟩
  · dsimp only
    split
    · simp only [List.forall_mem_append, List.forall_mem_cons]
      exact ⟨⟨htake _, hzeros _⟩, rfl, rfl, fun _ h => absurd h List.not_mem_nil⟩
    · simp only [List.forall_mem_append, List.forall_mem_cons]
      exact ⟨⟨htake _, hzeros _⟩, rfl, hdrop _⟩

theorem isLayout_of_mem_scientific {digits : List Char} (h : ∀ c ∈ digits, isLayout c = false)
    (exponent : Int) : ∀ c ∈ scientific digits exponent, isLayout c = false := by
  have hexponent : ∀ c ∈ (toString exponent).toList, isLayout c = false :=
    isLine_intToString exponent
  unfold scientific
  simp only [List.forall_mem_append, List.forall_mem_cons]
  refine ⟨?_, by decide, hexponent⟩
  split
  · simp only [List.forall_mem_cons] at h ⊢
    exact ⟨h.1, by decide, h.2⟩
  · exact h

theorem isLayout_of_mem_text {d : Decimal} : ∀ c ∈ d.text, isLayout c = false := by
  unfold text
  split
  · exact isLayout_of_mem_positional isLayout_of_mem_digits _
  · exact isLayout_of_mem_scientific isLayout_of_mem_digits _

end Decimal

theorem Binary64.isLine_text (x : Binary64) : IsLine x.text := by
  unfold text
  split
  · decide
  · split
    · split <;> decide
    · dsimp only
      unfold IsLine
      rw [String.toList_ofList]
      split
      · rw [List.forall_mem_cons]
        exact ⟨by decide, Decimal.isLayout_of_mem_text⟩
      · exact Decimal.isLayout_of_mem_text

@[simp] theorem TypeMask.isLine_expression (m : TypeMask) : IsLine m.expression := by
  intro c hc
  rcases mem_expression hc with h | rfl
  · exact isLayout_eq_false (by decide) (by decide) h
  · decide

@[simp] theorem AccessFlags.isLine_expression (a : AccessFlags) : IsLine a.expression := by
  have hnames : ∀ entry ∈ names, IsLine entry.2 := by decide
  unfold expression
  cases hset : names.filter fun entry => a.contains entry.1 with
  | nil => exact (by decide : IsLine "0")
  | cons first rest =>
    apply isLine_intercalate (by decide)
    intro part hpart
    obtain ⟨entry, hentry, rfl⟩ := List.mem_map.mp hpart
    rw [← hset] at hentry
    exact hnames entry (List.mem_filter.mp hentry).1

end ExtensionHeader
