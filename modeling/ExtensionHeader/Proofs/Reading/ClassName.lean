import ExtensionHeader.Header.ArgInfo
import ExtensionHeader.Proofs.Naming

/-! How a class name is read back from a macro argument or a string literal. Both double the
separators of the name; nothing else of a valid name is escaped. -/
namespace ExtensionHeader

def QualifiedName.doubled (text : List Char) : List Char :=
  text.flatMap fun c => if c = separator then [c, c] else [c]

namespace Reading

/-- Undoes the doubling of separators. A single separator begins an escape of another kind, which
no name holds. -/
def undouble? : List Char → Option (List Char)
  | [] => some []
  | c :: rest =>
    if c = QualifiedName.separator then
      match rest with
      | [] => none
      | d :: rest =>
        if d = QualifiedName.separator then (undouble? rest).map (c :: ·) else none
    else (undouble? rest).map (c :: ·)

def className? (text : List Char) : Option QualifiedName :=
  (undouble? text).map fun text =>
    let segments := (text.splitOn QualifiedName.separator).map String.ofList
    ⟨segments.dropLast, segments.getLastD ""⟩

theorem undouble?_doubled (text : List Char) :
    undouble? (QualifiedName.doubled text) = some text := by
  induction text with
  | nil => rfl
  | cons c rest ih =>
    unfold QualifiedName.doubled at ih ⊢
    rw [List.flatMap_cons]
    by_cases hc : c = QualifiedName.separator
    · rw [if_pos hc, List.cons_append, List.cons_append, List.nil_append]
      unfold undouble?
      rw [if_pos hc]
      simp only [if_pos hc, ih, Option.map_some]
    · rw [if_neg hc, List.cons_append, List.nil_append]
      unfold undouble?
      rw [if_neg hc, ih, Option.map_some]

theorem className?_doubled {q : QualifiedName} (h : q.IsValid) :
    className? (QualifiedName.doubled q.display.toList) = some q := by
  have hsplit : q.display.toList.splitOn QualifiedName.separator =
      (q.path ++ [q.name]).map String.toList :=
    QualifiedName.splitOn_joined (QualifiedName.separator_not_mem h)
      (List.append_ne_nil_of_right_ne_nil _ (List.cons_ne_nil _ _))
  have hsegments : ((q.path ++ [q.name]).map String.toList).map String.ofList =
      q.path ++ [q.name] := by
    rw [List.map_map]
    exact List.map_id'' (fun _ => String.ofList_toList) _
  unfold className?
  rw [undouble?_doubled, Option.map_some, hsplit, hsegments]
  simp only [List.dropLast_concat, List.getLastD_concat]

def classNames? (text : List Char) : Option (List QualifiedName) :=
  (text.splitOn '|').mapM className?

end Reading

theorem QualifiedName.IsValid.mem_display {q : QualifiedName} (h : q.IsValid) {c : Char}
    (hc : c ∈ q.display.toList) : Identifier.isContinuation c = true ∨ c = separator := by
  rcases mem_joined hc with hc | ⟨s, hs, hc⟩
  · exact .inr hc
  · exact .inl (Identifier.isContinuation_of_mem (h s hs) hc)

theorem QualifiedName.IsValid.mem_doubled {q : QualifiedName} (h : q.IsValid) {c : Char}
    (hc : c ∈ doubled q.display.toList) : Identifier.isContinuation c = true ∨ c = separator := by
  obtain ⟨d, hd, hc⟩ := List.mem_flatMap.mp hc
  have hcd : c = d := by
    split at hc <;> simpa using hc
  exact hcd ▸ h.mem_display hd

namespace Header.ArgType

theorem toList_className (q : QualifiedName) :
    (className q).toList = QualifiedName.doubled q.display.toList :=
  String.toList_ofList

end Header.ArgType

namespace Reading

open Header

theorem mapM_className? {classes : List QualifiedName} (h : ∀ q ∈ classes, q.IsValid) :
    (classes.map fun q => (ArgType.className q).toList).mapM className? = some classes := by
  induction classes with
  | nil => rfl
  | cons q rest ih =>
    have hq := className?_doubled (h q List.mem_cons_self)
    have hrest := ih fun r hr => h r (List.mem_cons_of_mem q hr)
    rw [List.map_cons, List.mapM_cons, ArgType.toList_className, hq, hrest]
    rfl

theorem classNames?_intercalate {classes : List QualifiedName} (h : ∀ q ∈ classes, q.IsValid)
    (hne : classes ≠ []) :
    classNames? ("|".intercalate (classes.map ArgType.className)).toList = some classes := by
  have hbar : ∀ text ∈ (classes.map ArgType.className).map String.toList, '|' ∉ text := by
    intro text htext hmem
    rw [List.map_map] at htext
    obtain ⟨q, hq, rfl⟩ := List.mem_map.mp htext
    rw [Function.comp_apply, ArgType.toList_className] at hmem
    exact absurd ((h q hq).mem_doubled hmem) (by decide)
  have hsplit := List.splitOn_intercalate '|' hbar (by simpa using hne)
  unfold classNames?
  rw [String.toList_intercalate, show "|".toList = ['|'] from rfl, hsplit, List.map_map]
  exact mapM_className? h

end Reading

theorem Identifier.toNat_lt_of_isContinuation {c : Char} (h : isContinuation c = true) :
    c.toNat < 123 := by
  unfold isContinuation Char.isAlphanum Char.isAlpha Char.isUpper Char.isLower Char.isDigit at h
  simp only [Bool.or_eq_true, Bool.and_eq_true, decide_eq_true_eq, beq_iff_eq] at h
  have hle : ∀ d : Char, d.toNat < 123 → c.val ≤ d.val → c.toNat < 123 :=
    fun d hd hcd => Nat.lt_of_le_of_lt (UInt32.le_iff_toNat_le.mp hcd) hd
  rcases h with ((h | h) | h) | rfl
  · exact hle 'Z' (by decide) h.2
  · exact hle 'z' (by decide) h.2
  · exact hle '9' (by decide) h.2
  · decide

namespace Text.CLiteral

theorem flatMap_escape_of_isContinuation {c : Char} (h : Identifier.isContinuation c = true) :
    (String.utf8EncodeChar c).flatMap escape = [c] := by
  have hall : ∀ n < 123, Identifier.isContinuation (Char.ofNat n) = true →
      (String.utf8EncodeChar (Char.ofNat n)).flatMap escape = [Char.ofNat n] := by decide
  have hc := hall c.toNat (Identifier.toNat_lt_of_isContinuation h)
  rw [Char.ofNat_toNat] at hc
  exact hc h

theorem quote_display {q : QualifiedName} (h : q.IsValid) :
    (quote q.display).toList = '"' :: QualifiedName.doubled q.display.toList ++ ['"'] := by
  unfold quote bytes QualifiedName.doubled
  rw [String.toList_ofList, List.flatMap_assoc]
  congr 2
  apply List.flatMap_congr
  intro c hc
  rcases h.mem_display hc with hcontinuation | rfl
  · have hseparator : c ≠ QualifiedName.separator := by
      rintro rfl
      contradiction
    rw [if_neg hseparator, flatMap_escape_of_isContinuation hcontinuation]
  · rw [if_pos rfl]
    decide

end Text.CLiteral

end ExtensionHeader
