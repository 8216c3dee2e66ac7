import ExtensionHeader.Proofs.Naming
import ExtensionHeader.Text
import ExtensionHeader.Proofs.Reading.Text
import Mathlib.Data.List.TakeWhile

/-! Lines of C read by their first word. The word tells which form the rest of the line has: fixed
texts, words whose spelling is read, and string literals, which are skipped by the rules of C. -/
namespace ExtensionHeader.Reading

inductive Piece where
  | text (s : String)
  | word
  | literal
deriving DecidableEq, Repr

/-- What stands behind the quote that ends a literal. A backslash takes the next character along. -/
def closed? : List Char → Option (List Char)
  | [] => none
  | '"' :: rest => some rest
  | '\\' :: _ :: rest => closed? rest
  | _ :: rest => closed? rest

def skipLiteral? : List Char → Option (List Char)
  | '"' :: rest => closed? rest
  | _ => none

/-- The words that stand in the places of the form. What comes behind the form is not looked at. -/
def words? : List Piece → List Char → Option (List String)
  | [], _ => some []
  | .text s :: form, line => (line.dropPrefix? s.toList).bind (words? form)
  | .word :: form, line =>
    (words? form (line.dropWhile Identifier.isContinuation)).map
      (String.ofList (line.takeWhile Identifier.isContinuation) :: ·)
  | .literal :: form, line => (skipLiteral? line).bind (words? form)

def isLeading (c : Char) : Bool := Identifier.isContinuation c || c == '#'

/-- Reads a line by the reader for its first word, if there is one. -/
def byKeyword (readers : List (String × (List Char → Option α))) (line : String) : Option α := do
  let read ← readers.lookup (String.ofList (line.toList.takeWhile isLeading))
  read (line.toList.dropWhile isLeading)

def IsWord (s : String) : Prop := ∀ c ∈ s.toList, Identifier.isContinuation c = true

def IsKeyword (s : String) : Prop := ∀ c ∈ s.toList, isLeading c = true

def IsStop (s : String) : Prop := ∃ c rest, s.toList = c :: rest ∧ isLeading c = false

instance (s : String) : Decidable (IsWord s) :=
  decidable_of_iff (s.toList.all Identifier.isContinuation = true) List.all_eq_true

instance (s : String) : Decidable (IsKeyword s) :=
  decidable_of_iff (s.toList.all isLeading = true) List.all_eq_true

instance (s : String) : Decidable (IsStop s) :=
  match h : s.toList with
  | [] => isFalse fun ⟨c, rest, heq, _⟩ => List.cons_ne_nil c rest (heq.symm.trans h)
  | c :: rest =>
    if hc : isLeading c = false then isTrue ⟨c, rest, h, hc⟩
    else isFalse fun ⟨_, _, heq, hd⟩ => hc ((List.cons.inj (h.symm.trans heq)).1 ▸ hd)

def Differ (s t : String) : Prop := (s.toList.zip t.toList).any (fun (c, d) => c != d) = true

instance (s t : String) : Decidable (Differ s t) :=
  inferInstanceAs (Decidable ((s.toList.zip t.toList).any (fun (c, d) => c != d) = true))

theorem dropPrefix?_eq_none {text front : List Char}
    (h : (text.zip front).any (fun (c, d) => c != d) = true) (rest : List Char) :
    (text ++ rest).dropPrefix? front = none := by
  induction text generalizing front with
  | nil => simp at h
  | cons c text ih =>
    cases front with
    | nil => simp at h
    | cons d front =>
      rw [List.cons_append, List.dropPrefix?]
      split
      · rename_i heq
        apply ih
        simpa [eq_of_beq heq] using h
      · rfl

section closed

open Text.CLiteral

def isInner (c : Char) : Bool := c != '"' && c != '\\'

def isEscaped : List Char → Bool
  | '\\' :: _ :: rest => rest.all isInner
  | text => text.all isInner

theorem closed?_append_of_inner {text : List Char} (h : text.all isInner = true)
    (rest : List Char) : closed? (text ++ rest) = closed? rest := by
  induction text with
  | nil => rfl
  | cons c text ih =>
    rw [List.all_cons, Bool.and_eq_true] at h
    have hquote : c ≠ '"' := bne_iff_ne.mp (Bool.and_eq_true_iff.mp h.1).1
    have hslash : c ≠ '\\' := bne_iff_ne.mp (Bool.and_eq_true_iff.mp h.1).2
    rw [List.cons_append, closed?.eq_4 _ _ hquote (fun _ _ hc => absurd hc hslash), ih h.2]

theorem closed?_append_of_escaped {text : List Char} (h : isEscaped text = true)
    (rest : List Char) : closed? (text ++ rest) = closed? rest := by
  unfold isEscaped at h
  split at h
  · rw [List.cons_append, List.cons_append, closed?]
    exact closed?_append_of_inner h rest
  · exact closed?_append_of_inner h rest

theorem isEscaped_escape (b : UInt8) : isEscaped (escape b) = true := by
  have hall : ∀ n < 256, isEscaped (escape (UInt8.ofNat n)) = true := by decide +kernel
  have hb := hall b.toNat b.toNat_lt
  rwa [UInt8.ofNat_toNat] at hb

theorem closed?_flatMap_escape (bytes : List UInt8) (rest : List Char) :
    closed? (bytes.flatMap escape ++ '"' :: rest) = some rest := by
  induction bytes with
  | nil => rfl
  | cons b bytes ih =>
    rw [List.flatMap_cons, List.append_assoc, closed?_append_of_escaped (isEscaped_escape b), ih]

end closed

theorem lookup_append_eq_none {table : List (String × α)} {front : String}
    (h : ∀ entry ∈ table, entry.1.toList.take front.toList.length ≠ front.toList) (rest : String) :
    table.lookup (front ++ rest) = none := by
  rw [List.lookup_eq_none_iff]
  intro entry hentry
  rw [bne_iff_ne]
  intro heq
  apply h entry hentry
  rw [← heq, String.toList_append, List.take_left]

section words

variable {s t w : String} {form : List Piece} {rest : String}

@[simp] theorem isWord_append : IsWord (s ++ t) ↔ IsWord s ∧ IsWord t := by
  unfold IsWord
  rw [String.toList_append]
  exact List.forall_mem_append

theorem isKeyword_append : IsKeyword (s ++ t) ↔ IsKeyword s ∧ IsKeyword t := by
  unfold IsKeyword
  rw [String.toList_append]
  exact List.forall_mem_append

theorem IsWord.isKeyword (h : IsWord w) : IsKeyword w := by
  intro c hc
  unfold isLeading
  rw [h c hc, Bool.true_or]

theorem isWord_of_isValid (h : Identifier.isValid s = true) : IsWord s :=
  fun _ hc => Identifier.isContinuation_of_mem h hc

theorem isWord_ofName {q : QualifiedName} (h : q.IsValid) : IsWord (Identifier.ofName q) :=
  fun _ hc => h.isContinuation_of_mem_ofName hc

theorem words?_text (s : String) (form : List Piece) (rest : String) :
    words? (.text s :: form) (s ++ rest).toList = words? form rest.toList := by
  rw [words?, String.toList_append, List.dropPrefix?_append_of_beq _ (beq_self_eq_true _),
    Option.bind_some]

theorem words?_text_eq_none (h : Differ s t) (form : List Piece) (rest : String) :
    words? (.text t :: form) (s ++ rest).toList = none := by
  rw [words?, String.toList_append, dropPrefix?_eq_none h]
  rfl

theorem words?_word (hw : IsWord w) (hs : IsStop s) (form : List Piece) (rest : String) :
    words? (.word :: form) (w ++ (s ++ rest)).toList =
      (words? form (s ++ rest).toList).map (w :: ·) := by
  obtain ⟨c, tail, hc, hstop⟩ := hs
  have hend : Identifier.isContinuation c = false := (Bool.or_eq_false_iff.mp hstop).1
  have hrest : (s ++ rest).toList = c :: (tail ++ rest.toList) := by
    rw [String.toList_append, hc, List.cons_append]
  rw [words?, String.toList_append, hrest, takeWhile_stop hw hend, dropWhile_stop hw hend,
    String.ofList_toList]

theorem words?_word_stop (hw : IsWord w) (hs : IsStop s) (form : List Piece) :
    words? (.word :: form) (w ++ s).toList = (words? form s.toList).map (w :: ·) := by
  have h := words?_word hw hs form ""
  rwa [String.append_empty] at h

theorem words?_word_end (hw : IsWord w) : words? [.word] w.toList = some [w] := by
  rw [words?, List.takeWhile_eq_self_iff.mpr hw, String.ofList_toList]
  rfl

theorem words?_literal (s : String) (form : List Piece) (rest : String) :
    words? (.literal :: form) (Text.CLiteral.quote s ++ rest).toList = words? form rest.toList := by
  have hquote : (Text.CLiteral.quote s ++ rest).toList =
      '"' :: ((Text.bytes s).flatMap Text.CLiteral.escape ++ '"' :: rest.toList) := by
    unfold Text.CLiteral.quote
    rw [String.toList_append, String.toList_ofList, List.cons_append, List.cons_append,
      List.append_assoc]
    rfl
  rw [words?, hquote, skipLiteral?, closed?_flatMap_escape, Option.bind_some]

theorem byKeyword_append {readers : List (String × (List Char → Option α))}
    (hw : IsKeyword w) (hs : IsStop s) (rest : String) :
    byKeyword readers (w ++ (s ++ rest)) =
      (readers.lookup w).bind (· (s ++ rest).toList) := by
  obtain ⟨c, tail, hc, hstop⟩ := hs
  have hrest : (s ++ rest).toList = c :: (tail ++ rest.toList) := by
    rw [String.toList_append, hc, List.cons_append]
  unfold byKeyword
  rw [String.toList_append, hrest, takeWhile_stop hw hstop, dropWhile_stop hw hstop,
    String.ofList_toList]
  rfl

theorem takeWhile_front {front : String} (hstop : front.toList.all isLeading = false)
    (rest : String) : (front ++ rest).toList.takeWhile isLeading =
      front.toList.takeWhile isLeading := by
  have htake : (front.toList.takeWhile isLeading).length ≠ front.toList.length := by
    intro heq
    have hself := (List.takeWhile_sublist isLeading).eq_of_length heq
    rw [Bool.eq_false_iff] at hstop
    exact hstop (List.all_eq_true.mpr (List.takeWhile_eq_self_iff.mp hself))
  rw [String.toList_append, List.takeWhile_append, if_neg htake]

theorem byKeyword_eq_none {readers : List (String × (List Char → Option α))} {front : String}
    (hstop : front.toList.all isLeading = false)
    (hread : readers.lookup (String.ofList (front.toList.takeWhile isLeading)) = none)
    (rest : String) : byKeyword readers (front ++ rest) = none := by
  unfold byKeyword
  rw [takeWhile_front hstop, hread]
  rfl

end words

end ExtensionHeader.Reading
