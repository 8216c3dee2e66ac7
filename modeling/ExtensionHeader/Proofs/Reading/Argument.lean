import ExtensionHeader.Proofs.Reading.ClassName
import ExtensionHeader.Proofs.Reading.Mask
import ExtensionHeader.Proofs.Reading.Text
import ExtensionHeader.Validation.Typing

/-! How the engine reads a type from a line of argument information. The macro tells which arguments
describe the type; they follow those that name the parameter or the block. -/
namespace ExtensionHeader

open Header

namespace Reading

/-- A type as it is read back: its classes in order, and all other values as a mask. -/
structure TypeReading where
  classes : List QualifiedName
  mask : TypeMask
deriving DecidableEq, Repr

inductive MacroKind where
  | code | object | mask | objectMask
deriving DecidableEq, Repr

def macros : List (String × MacroKind) :=
  [("ZEND_ARG_TYPE_INFO", .code),
    ("ZEND_ARG_TYPE_INFO_WITH_DEFAULT_VALUE", .code),
    ("ZEND_ARG_VARIADIC_TYPE_INFO", .code),
    ("ZEND_ARG_VARIADIC_TYPE_INFO_WITH_DEFAULT_VALUE", .code),
    ("ZEND_ARG_OBJ_INFO", .object),
    ("ZEND_ARG_OBJ_INFO_WITH_DEFAULT_VALUE", .object),
    ("ZEND_ARG_VARIADIC_OBJ_INFO", .object),
    ("ZEND_ARG_VARIADIC_OBJ_INFO_WITH_DEFAULT_VALUE", .object),
    ("ZEND_ARG_TYPE_MASK", .mask),
    ("ZEND_ARG_VARIADIC_TYPE_MASK", .mask),
    ("ZEND_ARG_OBJ_TYPE_MASK", .objectMask),
    ("ZEND_ARG_VARIADIC_OBJ_TYPE_MASK", .objectMask),
    ("ZEND_BEGIN_ARG_WITH_RETURN_TYPE_INFO_EX", .code),
    ("ZEND_BEGIN_ARG_WITH_RETURN_OBJ_INFO_EX", .object),
    ("ZEND_BEGIN_ARG_WITH_RETURN_TYPE_MASK_EX", .mask),
    ("ZEND_BEGIN_ARG_WITH_RETURN_OBJ_TYPE_MASK_EX", .objectMask)]

/-- Reads the arguments from the first one that describes the type. Those behind them, such as a
default value, say nothing about it. -/
def MacroKind.read? : MacroKind → List (List Char) → Option TypeReading
  | code, kind :: digit :: _ => do
    let values ← code? kind
    let null ← nullable? digit
    return ⟨[], values ∪ null⟩
  | object, name :: digit :: _ => do
    let cls ← className? name
    let null ← nullable? digit
    return ⟨[cls], null⟩
  | mask, expression :: _ => do
    let values ← mask? expression
    return ⟨[], values⟩
  | objectMask, names :: expression :: _ => do
    let classes ← classNames? names
    let values ← mask? expression
    return ⟨classes, values⟩
  | _, _ => none

def isDelimiter (c : Char) : Bool := c == ',' || c == ')'

def arguments (text : List Char) : List (List Char) :=
  (text.splitOnP isDelimiter).map (·.dropWhile (· == ' '))

/-- The type that a macro call takes behind the arguments `leading`. -/
def type? (leading : List String) (line : String) : Option TypeReading := do
  let name := line.toList.takeWhile (· ≠ '(')
  let kind ← macros.lookup (String.ofList name)
  let rest ← (line.toList.drop name.length).dropPrefix?
    ("(" ++ ", ".intercalate leading ++ ", ").toList
  kind.read? (arguments rest)

def IsPlain (text : List Char) : Prop := ∀ c ∈ text, isDelimiter c = false ∧ c ≠ ' '

instance (text : List Char) : Decidable (IsPlain text) :=
  decidable_of_iff (text.all fun c => isDelimiter c = false ∧ c ≠ ' ')
    (List.all_eq_true.trans (forall₂_congr fun _ _ => decide_eq_true_iff))

theorem arguments_cons {text : List Char} (h : IsPlain text) (blanks : List Char)
    (hblanks : ∀ c ∈ blanks, c = ' ') {d : Char} (hd : isDelimiter d = true) (rest : List Char) :
    arguments (blanks ++ text ++ d :: rest) = text :: arguments rest := by
  have hinner : ∀ c ∈ blanks ++ text, isDelimiter c = false := by
    intro c hc
    rcases List.mem_append.mp hc with hc | hc
    · rw [hblanks c hc]
      decide
    · exact (h c hc).1
  have hdrop : (blanks ++ text).dropWhile (· == ' ') = text := by
    rw [List.dropWhile_append_of_pos (by simpa using hblanks)]
    cases text with
    | nil => rfl
    | cons c rest =>
      exact List.dropWhile_cons_of_neg (by simpa using (h c List.mem_cons_self).2)
  unfold arguments
  rw [List.splitOnP_append_cons_of_forall_mem hinner d hd, List.map_cons, hdrop]

theorem arguments_intercalate {args : List String} (hne : args ≠ [])
    (h : ∀ a ∈ args, IsPlain a.toList) (blanks : List Char) (hblanks : ∀ c ∈ blanks, c = ' ')
    {d : Char} (hd : isDelimiter d = true) (rest : List Char) :
    arguments (blanks ++ (", ".intercalate args).toList ++ d :: rest) =
      args.map String.toList ++ arguments rest := by
  induction args generalizing blanks with
  | nil => exact absurd rfl hne
  | cons a others ih =>
    have ha := h a List.mem_cons_self
    cases others with
    | nil =>
      rw [String.intercalate_singleton]
      exact arguments_cons ha blanks hblanks hd rest
    | cons b others =>
      have hothers := ih (List.cons_ne_nil b others)
        (fun x hx => h x (List.mem_cons_of_mem a hx)) [' '] (by simp)
      have hfirst := arguments_cons ha blanks hblanks (d := ',') (by decide)
        ([' '] ++ (", ".intercalate (b :: others)).toList ++ d :: rest)
      rw [List.map_cons, List.cons_append, ← hothers, ← hfirst]
      congr 1
      rw [String.intercalate_cons_cons, String.toList_append, String.toList_append]
      simp

theorem arguments_call {args : List String} (hne : args ≠ []) (h : ∀ a ∈ args, IsPlain a.toList)
    (others : List String) :
    ∃ more, arguments (", ".intercalate (args ++ others) ++ ")").toList =
      args.map String.toList ++ more := by
  have hstop : ∀ {d : Char}, isDelimiter d = true → ∀ rest,
      arguments ((", ".intercalate args).toList ++ d :: rest) =
        args.map String.toList ++ arguments rest := by
    intro d hd rest
    exact arguments_intercalate hne h [] (fun _ hc => absurd hc List.not_mem_nil) hd rest
  by_cases hothers : others = []
  · refine ⟨arguments [], ?_⟩
    rw [hothers, List.append_nil, String.toList_append]
    exact hstop (by decide) []
  · refine ⟨arguments (' ' :: (", ".intercalate others ++ ")").toList), ?_⟩
    rw [String.intercalate_append_of_ne_nil hne hothers, ← hstop (d := ',') (by decide)]
    simp

theorem takeWhile_call {name : String} (h : '(' ∉ name.toList) (behind : List Char) :
    (name.toList ++ '(' :: behind).takeWhile (· ≠ '(') = name.toList := by
  apply takeWhile_stop
  · intro c hc
    have hne : c ≠ '(' := fun heq => h (heq ▸ hc)
    simpa using hne
  · decide

theorem type?_call {name : String} {kind : MacroKind} (hname : macros.lookup name = some kind)
    {leading args : List String} (hleading : leading ≠ []) (hargs : args ≠ [])
    (h : ∀ a ∈ args, IsPlain a.toList) (others : List String) :
    ∃ more, type? leading (call name (leading ++ args ++ others)) =
      kind.read? (args.map String.toList ++ more) := by
  have hopen : '(' ∉ name.toList := by
    have hall : ∀ p ∈ macros, '(' ∉ p.1.toList := by decide +kernel
    obtain ⟨before, after, heq, -⟩ := List.lookup_eq_some_iff.mp hname
    exact hall (name, kind) (heq ▸ List.mem_append_right before List.mem_cons_self)
  have hline : (call name (leading ++ args ++ others)).toList = name.toList ++
      (("(" ++ ", ".intercalate leading ++ ", ").toList ++
        (", ".intercalate (args ++ others) ++ ")").toList) := by
    rw [call, List.append_assoc, String.intercalate_append_of_ne_nil hleading
      (List.append_ne_nil_of_left_ne_nil hargs others)]
    simp only [String.toList_append, List.append_assoc]
  have htake : ∀ behind, (name.toList ++ (("(" ++ ", ".intercalate leading ++ ", ").toList ++
      behind)).takeWhile (· ≠ '(') = name.toList := by
    intro behind
    simpa using takeWhile_call hopen ((", ".intercalate leading ++ ", ").toList ++ behind)
  obtain ⟨more, hmore⟩ := arguments_call hargs h others
  refine ⟨more, ?_⟩
  unfold type?
  rw [hline]
  simp only [htake, String.ofList_toList, hname, List.drop_left,
    List.dropPrefix?_append_of_beq _ (beq_self_eq_true _)]
  exact congrArg kind.read? hmore

def MacroKind.family : MacroKind → String
  | code => "TYPE_INFO"
  | object => "OBJ_INFO"
  | mask => "TYPE_MASK"
  | objectMask => "OBJ_TYPE_MASK"

theorem lookup_return (kind : MacroKind) :
    macros.lookup ("ZEND_BEGIN_ARG_WITH_RETURN_" ++ kind.family ++ "_EX") = some kind := by
  cases kind <;> decide

theorem lookup_argument (kind : MacroKind) (isVariadic : Bool) :
    macros.lookup ((if isVariadic then "ZEND_ARG_VARIADIC_" else "ZEND_ARG_") ++ kind.family) =
      some kind := by
  cases kind <;> cases isVariadic <;> decide

theorem lookup_default {kind : MacroKind} (h : kind = .code ∨ kind = .object)
    (isVariadic : Bool) : macros.lookup
      ((if isVariadic then "ZEND_ARG_VARIADIC_" else "ZEND_ARG_") ++ kind.family ++
        "_WITH_DEFAULT_VALUE") = some kind := by
  rcases h with rfl | rfl <;> cases isVariadic <;> decide

end Reading

namespace Header

open Reading

namespace ArgType

def kind? : ArgType → Option MacroKind
  | untyped => none
  | code .. => some .code
  | object .. => some .object
  | mask _ => some .mask
  | objectMask .. => some .objectMask

variable {t : ArgType} {kind : MacroKind}

theorem family_eq (h : t.kind? = some kind) : t.family = kind.family := by
  cases t with
  | untyped => contradiction
  | _ =>
    cases h
    rfl

theorem kind_of_takesDefault (h : t.kind? = some kind) (hdefault : t.takesDefault = false) :
    kind = .code ∨ kind = .object := by
  cases t with
  | untyped => contradiction
  | mask | objectMask => contradiction
  | code =>
    cases h
    exact .inl rfl
  | object =>
    cases h
    exact .inr rfl

def meaning : ArgType → TypeReading
  | untyped => ⟨[], .empty⟩
  | code kind isNullable => ⟨[], kind.mask ∪ if isNullable then .null else .empty⟩
  | object cls isNullable => ⟨[cls], if isNullable then .null else .empty⟩
  | mask m => ⟨[], m⟩
  | objectMask classes m => ⟨classes, m⟩

def Legible : ArgType → Prop
  | untyped => False
  | code .. => True
  | object cls _ => cls.IsValid
  | mask m => m.Named
  | objectMask classes m => classes ≠ [] ∧ (∀ q ∈ classes, q.IsValid) ∧ m.Named

theorem read?_arguments (h : t.Legible) (hkind : t.kind? = some kind) (more : List (List Char)) :
    kind.read? (t.arguments.map String.toList ++ more) = some t.meaning := by
  cases t with
  | untyped => contradiction
  | code scalar isNullable =>
    cases hkind
    simp only [arguments, List.map_cons, List.map_nil, List.cons_append, List.nil_append,
      MacroKind.read?, code?_display, nullable?_bit]
    rfl
  | object cls isNullable =>
    cases hkind
    simp only [arguments, List.map_cons, List.map_nil, List.cons_append, List.nil_append,
      MacroKind.read?, toList_className, className?_doubled h, nullable?_bit]
    rfl
  | mask m =>
    cases hkind
    simp only [arguments, List.map_cons, List.map_nil, List.cons_append, List.nil_append,
      MacroKind.read?, TypeMask.mask?_expression h]
    rfl
  | objectMask classes m =>
    cases hkind
    obtain ⟨hne, hvalid, hnamed⟩ := h
    simp only [arguments, List.map_cons, List.map_nil, List.cons_append, List.nil_append,
      MacroKind.read?, classNames?_intercalate hvalid hne, TypeMask.mask?_expression hnamed]
    rfl

def IsTypeText (text : List Char) : Prop :=
  ∀ c ∈ text, Identifier.isContinuation c = true ∨ c = QualifiedName.separator ∨ c = '|'

instance (text : List Char) : Decidable (IsTypeText text) :=
  decidable_of_iff (text.all fun c =>
    Identifier.isContinuation c = true ∨ c = QualifiedName.separator ∨ c = '|')
    List.all_iff_forall_prop

theorem IsTypeText.isPlain {text : List Char} (h : IsTypeText text) : IsPlain text := by
  intro c hc
  rcases h c hc with hcontinuation | rfl | rfl
  · refine ⟨?_, ?_⟩
    · unfold isDelimiter
      rw [Bool.or_eq_false_iff, beq_eq_false_iff_ne, beq_eq_false_iff_ne]
      constructor <;> rintro rfl <;> contradiction
    · rintro rfl
      contradiction
  · decide
  · decide

theorem isTypeText_bit (b : Bool) : IsTypeText (Text.bit b).toList := by
  cases b <;> decide

theorem isTypeText_display (scalar : Scalar) : IsTypeText scalar.code.display.toList := by
  cases scalar <;> decide

theorem isTypeText_expression (m : TypeMask) : IsTypeText m.expression.toList :=
  fun _ hc => (TypeMask.mem_expression hc).imp_right Or.inr

theorem isTypeText_className {q : QualifiedName} (h : q.IsValid) :
    IsTypeText (className q).toList := by
  rw [toList_className]
  exact fun _ hc => (h.mem_doubled hc).imp_right Or.inl

theorem isTypeText_classNames {classes : List QualifiedName} (h : ∀ q ∈ classes, q.IsValid) :
    IsTypeText ("|".intercalate (classes.map className)).toList := by
  intro c hc
  rw [show "|" = String.singleton '|' from rfl] at hc
  rcases QualifiedName.mem_intercalate hc with hc | ⟨text, htext, hc⟩
  · exact .inr (.inr hc)
  · obtain ⟨q, hq, rfl⟩ := List.mem_map.mp htext
    exact isTypeText_className (h q hq) c hc

theorem arguments_ne_nil (h : t.Legible) : t.arguments ≠ [] := by
  cases t with
  | untyped => contradiction
  | _ => exact List.cons_ne_nil _ _

theorem isTypeText_of_mem_arguments (h : t.Legible) :
    ∀ a ∈ t.arguments, IsTypeText a.toList := by
  have hpair : ∀ a b : String, IsTypeText a.toList → IsTypeText b.toList →
      ∀ x ∈ [a, b], IsTypeText x.toList := by
    intro a b ha hb
    exact List.forall_mem_cons.mpr ⟨ha, List.forall_mem_singleton.mpr hb⟩
  cases t with
  | untyped => contradiction
  | code scalar isNullable =>
    exact hpair _ _ (isTypeText_display scalar) (isTypeText_bit isNullable)
  | object cls isNullable =>
    exact hpair _ _ (isTypeText_className h) (isTypeText_bit isNullable)
  | mask m => exact List.forall_mem_singleton.mpr (isTypeText_expression m)
  | objectMask classes m =>
    exact hpair _ _ (isTypeText_classNames h.2.1) (isTypeText_expression m)

theorem isPlain_of_mem_arguments (h : t.Legible) : ∀ a ∈ t.arguments, IsPlain a.toList :=
  fun a ha => (isTypeText_of_mem_arguments h a ha).isPlain

theorem exists_kind (h : t.Legible) : ∃ kind, t.kind? = some kind := by
  cases t with
  | untyped => contradiction
  | _ => exact ⟨_, rfl⟩

theorem legible_ofUnion {u : UnionType} (h : u.Regular) (hvalid : ∀ q ∈ u.classes, q.IsValid) :
    (ofUnion u).Legible := by
  unfold ofUnion
  split
  · split
    · trivial
    · split
      · split
        · trivial
        · exact h.named_mask
      · exact h.named_mask
  · rename_i cls hclasses
    split
    · exact hvalid cls (hclasses ▸ List.mem_cons_self)
    · exact ⟨List.cons_ne_nil _ _, hclasses ▸ hvalid, h.named_mask⟩
  · rename_i hne _
    exact ⟨hne, hvalid, h.named_mask⟩

/-- The four shapes say the same of a union: its classes and its mask. Only what a union adds to
`mixed` is not written. -/
theorem meaning_ofUnion {u : UnionType} (h : u.Regular) :
    (ofUnion u).meaning = ⟨u.classes, u.mask⟩ ∨
      u.classes = [] ∧ u.mask.contains .any = true ∧ (ofUnion u).meaning = ⟨[], .any⟩ := by
  unfold ofUnion
  split
  · rename_i hclasses
    rw [hclasses]
    split
    · rename_i hany
      exact .inr ⟨rfl, hany, rfl⟩
    · left
      split
      · rename_i kind hkinds
        split
        · rename_i hkind
          rw [h.mask_eq, ← hkind]
          rfl
        · rfl
      · rfl
  · rename_i cls hclasses
    left
    rw [hclasses]
    split
    · rename_i hempty
      rw [h.mask_eq, TypeMask.isEmpty_iff.mp hempty, TypeMask.empty_union]
      rfl
    · rfl
  · exact .inl rfl

theorem legible_of {t : DeclaredType} (hbuilt : t.IsBuilt) (hvalid : ∀ q ∈ t.classes, q.IsValid) :
    (of (some t)).Legible := by
  cases t with
  | scalar kind => trivial
  | cls name => exact hvalid name List.mem_cons_self
  | union u => exact legible_ofUnion hbuilt.regular hvalid

theorem meaning_of {t : DeclaredType} {location : Location} (hbuilt : t.IsBuilt)
    (hvalid : ∀ q ∈ t.classes, q.IsValid)
    (haccepted : Validation.ofType .property location t = []) :
    (of (some t)).Legible ∧ (of (some t)).meaning = ⟨t.classes, t.mask⟩ := by
  refine ⟨legible_of hbuilt hvalid, ?_⟩
  cases t with
  | scalar kind =>
    simp only [of, meaning, DeclaredType.classes, DeclaredType.mask]
    rw [if_neg Bool.false_ne_true, TypeMask.union_empty]
  | cls name => rfl
  | union u =>
    have hregular : u.Regular := hbuilt.regular
    have hdeclarable := UnionType.declarable_of_ofUnion haccepted
    show (ofUnion u).meaning = ⟨u.classes, u.mask⟩
    rcases meaning_ofUnion hregular with heq | ⟨hclasses, hany, heq⟩
    · exact heq
    · rw [heq, hclasses,
        hregular.named_mask.eq_any hany hdeclarable.callable hdeclarable.void]

end ArgType

theorem exists_argument {p : Parameter} {kind : MacroKind}
    (h : (ArgType.of p.type?).kind? = some kind) :
    ∃ name others, macros.lookup name = some kind ∧ argument p = call name
      ([Text.bit p.byReference, p.name] ++ (ArgType.of p.type?).arguments ++ others) := by
  have hfamily := ArgType.family_eq h
  unfold argument
  simp only [hfamily]
  cases htakes : (ArgType.of p.type?).takesDefault with
  | true => exact ⟨_, _, lookup_argument kind p.isVariadic, rfl⟩
  | false =>
    rw [if_neg Bool.false_ne_true]
    cases p.default? with
    | none =>
      refine ⟨_, [], lookup_argument kind p.isVariadic, ?_⟩
      rw [List.append_nil]
      rfl
    | some value =>
      exact ⟨_, _, lookup_default (ArgType.kind_of_takesDefault h htakes) p.isVariadic, rfl⟩

theorem exists_opening {name : String} {s : Signature} {kind : MacroKind}
    (h : (ArgType.of s.returns?).kind? = some kind) :
    ∃ macroName, macros.lookup macroName = some kind ∧ opening name s = call macroName
      ([name, Text.bit s.returnsReference, toString s.required] ++
        (ArgType.of s.returns?).arguments ++ []) := by
  refine ⟨_, lookup_return kind, ?_⟩
  rw [List.append_nil, ← ArgType.family_eq h]
  unfold opening
  cases ht : ArgType.of s.returns? with
  | untyped =>
    rw [ht] at h
    contradiction
  | _ => rfl

theorem type?_call_arguments {t : ArgType} (h : t.Legible) {kind : MacroKind}
    (hkind : t.kind? = some kind) {macroName : String}
    (hname : macros.lookup macroName = some kind) {front : List String} (hfront : front ≠ [])
    (others : List String) :
    type? front (call macroName (front ++ t.arguments ++ others)) = some t.meaning := by
  obtain ⟨more, hread⟩ := type?_call hname hfront (ArgType.arguments_ne_nil h)
    (ArgType.isPlain_of_mem_arguments h) others
  rw [hread]
  exact ArgType.read?_arguments h hkind more

theorem type?_argument {p : Parameter} (h : (ArgType.of p.type?).Legible) :
    type? [Text.bit p.byReference, p.name] (argument p) = some (ArgType.of p.type?).meaning := by
  obtain ⟨kind, hkind⟩ := ArgType.exists_kind h
  obtain ⟨name, others, hname, hcall⟩ := exists_argument hkind
  rw [hcall]
  exact type?_call_arguments h hkind hname (List.cons_ne_nil _ _) others

theorem type?_opening {s : Signature} (h : (ArgType.of s.returns?).Legible) (name : String) :
    type? [name, Text.bit s.returnsReference, toString s.required] (opening name s) =
      some (ArgType.of s.returns?).meaning := by
  obtain ⟨kind, hkind⟩ := ArgType.exists_kind h
  obtain ⟨macroName, hname, hcall⟩ := exists_opening hkind
  rw [hcall]
  exact type?_call_arguments h hkind hname (List.cons_ne_nil _ _) []

end Header

end ExtensionHeader
