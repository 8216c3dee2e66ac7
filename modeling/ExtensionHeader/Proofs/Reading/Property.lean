import ExtensionHeader.Proofs.Handles
import ExtensionHeader.Proofs.Reading.Argument
import ExtensionHeader.Proofs.Reading.Text

/-! How the type of a property is read from the lines that make it. The first lines hold the names
of its classes in variables; the lines behind them give the type itself, as a mask, as one class, or
as a list of classes together with a mask. -/
namespace ExtensionHeader

open Header

namespace Reading

structure ListReading where
  /-- The number of entries there is room for. -/
  size : Nat
  /-- The number of types that the list is said to have. -/
  count : Nat
  /-- The entries that are filled, in the order of their lines. -/
  slots : List (Nat × QualifiedName)
deriving DecidableEq, Repr

structure PropertyReading where
  type : TypeReading
  list? : Option ListReading := none
deriving DecidableEq, Repr

variable (property : String)

def classPrefix : String := Variable.stem property ++ "_class_"

/-- A variable that holds the name of a class: how it ends, and the class. The size is that of the
same literal. -/
def held? (line : String) : Option (String × QualifiedName) := do
  let rest ← line.toList.dropPrefix? ("zend_string *" ++ classPrefix property).toList
  let ending := rest.takeWhile Identifier.isContinuation
  let value ← (rest.dropWhile Identifier.isContinuation).dropPrefix?
    " = zend_string_init(\"".toList
  let name := value.takeWhile (· ≠ '"')
  let size ← (value.dropWhile (· ≠ '"')).dropPrefix? ("\", sizeof(\"").toList
  if size = name ++ "\") - 1, 1);".toList then
    (className? name).map (String.ofList ending, ·)
  else none

def heldLines : List String → List (String × QualifiedName) × List String
  | [] => ([], [])
  | line :: rest =>
    match held? property line with
    | some held => (held :: (heldLines rest).1, (heldLines rest).2)
    | none => ([], line :: rest)

def classType? (held : List (String × QualifiedName)) (text : List Char) :
    Option QualifiedName := do
  let ending ← between?
    ("(zend_type) ZEND_TYPE_INIT_CLASS(zend_string_copy(" ++ classPrefix property)
    "), 0, 0);" text
  held.lookup (String.ofList ending)

def typeValue? (line : String) : Option (List Char) :=
  line.toList.dropPrefix? ("zend_type " ++ Variable.type property ++ " = ").toList

def single? (held : List (String × QualifiedName)) (line : String) : Option TypeReading := do
  let value ← typeValue? property line
  match between? "(zend_type) ZEND_TYPE_INIT_MASK(" ");" value with
  | some expression => (mask? expression).map (⟨[], ·⟩)
  | none => (classType? property held value).map (⟨[·], .empty⟩)

def size? (line : String) : Option Nat :=
  (between? ("zend_type_list *" ++ Variable.list property ++ " = malloc(ZEND_TYPE_LIST_SIZE(")
    "));" line.toList).bind number?

def count? (line : String) : Option Nat :=
  (between? (Variable.list property ++ "->num_types = ") ";" line.toList).bind number?

def slot? (held : List (String × QualifiedName)) (line : String) :
    Option (Nat × QualifiedName) := do
  let rest ← line.toList.dropPrefix? (Variable.list property ++ "->types[").toList
  let index ← number? (rest.takeWhile Char.isDigit)
  let value ← (rest.dropWhile Char.isDigit).dropPrefix? "] = ".toList
  let cls ← classType? property held value
  return (index, cls)

def union? (line : String) : Option TypeMask := do
  let value ← typeValue? property line
  let expression ← between? ("ZEND_TYPE_INIT_UNION(" ++ Variable.list property ++ ", ") ");" value
  mask? expression

/-- The type of the property, from the lines that make it. -/
def property? (lines : List String) : Option PropertyReading :=
  let held := (heldLines property lines).1
  match (heldLines property lines).2 with
  | [] => none
  | [line] => (single? property held line).map (⟨·, none⟩)
  | size :: count :: rest => do
    let size ← size? property size
    let count ← count? property count
    let slots ← rest.dropLast.mapM (slot? property held)
    let union ← rest.getLast?.bind (union? property)
    return ⟨⟨slots.map Prod.snd, union⟩, some ⟨size, count, slots⟩⟩

variable {property}

theorem toList_holdString {q : QualifiedName} (hq : q.IsValid) :
    (Statement.holdString (Variable.cls property q) q.display).text.toList =
      ("zend_string *" ++ classPrefix property).toList ++ ((Identifier.ofName q).toList ++
        (" = zend_string_init(\"".toList ++ (QualifiedName.doubled q.display.toList ++
          ("\", sizeof(\"".toList ++ (QualifiedName.doubled q.display.toList ++
            "\") - 1, 1);".toList))))) := by
  have htext : (Statement.holdString (Variable.cls property q) q.display).text =
      "zend_string *" ++ (classPrefix property ++ Identifier.ofName q) ++ " = " ++
        ("zend_string_init(" ++ Text.CLiteral.quote q.display ++ ", sizeof(" ++
          Text.CLiteral.quote q.display ++ ") - 1, 1)") ++ ";" := rfl
  rw [htext]
  simp only [String.toList_append, Text.CLiteral.quote_display hq, List.append_assoc,
    List.cons_append, List.nil_append]
  rfl

theorem held?_holdString {q : QualifiedName} (hq : q.IsValid) :
    held? property (Statement.holdString (Variable.cls property q) q.display).text =
      some (Identifier.ofName q, q) := by
  have hending : ∀ c ∈ (Identifier.ofName q).toList, Identifier.isContinuation c = true :=
    fun c hc => hq.isContinuation_of_mem_ofName hc
  have hquote : ∀ c ∈ QualifiedName.doubled q.display.toList, decide (c ≠ '"') = true :=
    forall_ne_of_not_mem fun hc => absurd (hq.mem_doubled hc) (by decide)
  have htake : ∀ rest, ((Identifier.ofName q).toList ++
      (" = zend_string_init(\"".toList ++ rest)).takeWhile Identifier.isContinuation =
        (Identifier.ofName q).toList :=
    fun rest => takeWhile_stop hending (d := ' ') (by decide) _
  have hdrop : ∀ rest, ((Identifier.ofName q).toList ++
      (" = zend_string_init(\"".toList ++ rest)).dropWhile Identifier.isContinuation =
        " = zend_string_init(\"".toList ++ rest :=
    fun rest => dropWhile_stop hending (d := ' ') (by decide) _
  have hname : ∀ rest, (QualifiedName.doubled q.display.toList ++
      ("\", sizeof(\"".toList ++ rest)).takeWhile (· ≠ '"') =
        QualifiedName.doubled q.display.toList :=
    fun rest => takeWhile_stop hquote (d := '"') (by decide) _
  have hsize : ∀ rest, (QualifiedName.doubled q.display.toList ++
      ("\", sizeof(\"".toList ++ rest)).dropWhile (· ≠ '"') = "\", sizeof(\"".toList ++ rest :=
    fun rest => dropWhile_stop hquote (d := '"') (by decide) _
  unfold held?
  rw [toList_holdString hq]
  simp only [List.dropPrefix?_append_of_beq _ (beq_self_eq_true _), Option.bind_eq_bind,
    Option.bind_some, htake, hdrop, hname, hsize, if_true, className?_doubled hq,
    Option.map_some, String.ofList_toList]

theorem held?_eq_none {line : String} {rest : List Char}
    (h : line.toList = "zend_type".toList ++ rest) : held? property line = none := by
  have hfront : line.toList.dropPrefix? ("zend_string *" ++ classPrefix property).toList =
      none := by
    rw [h, String.toList_append]
    rfl
  unfold held?
  rw [hfront]
  rfl

def holding (property : String) (classes : List QualifiedName) : List Statement :=
  classes.map fun q => .holdString (Variable.cls property q) q.display

def table (classes : List QualifiedName) : List (String × QualifiedName) :=
  classes.map fun q => (Identifier.ofName q, q)

theorem heldLines_append {classes : List QualifiedName} (h : ∀ q ∈ classes, q.IsValid)
    {line : String} (hline : held? property line = none) (rest : List String) :
    heldLines property ((holding property classes).map (·.text) ++ line :: rest) =
      (table classes, line :: rest) := by
  unfold holding table
  induction classes with
  | nil =>
    rw [List.map_nil, List.map_nil, List.nil_append, heldLines, hline]
    rfl
  | cons q others ih =>
    have hothers := ih fun r hr => h r (List.mem_cons_of_mem q hr)
    rw [List.map_cons, List.map_cons, List.cons_append, heldLines,
      held?_holdString (h q List.mem_cons_self), hothers]
    rfl

section made

variable {held : List (String × QualifiedName)} {q : QualifiedName} {m : TypeMask}

theorem toList_newClassType (property : String) (q : QualifiedName) :
    (Statement.newClassType (Variable.cls property q) ++ ";").toList =
      ("(zend_type) ZEND_TYPE_INIT_CLASS(zend_string_copy(" ++ classPrefix property).toList ++
        ((Identifier.ofName q).toList ++ "), 0, 0);".toList) := by
  have htext : Statement.newClassType (Variable.cls property q) =
      "(zend_type) " ++ "ZEND_TYPE_INIT_CLASS" ++ "(zend_string_copy(" ++
        (classPrefix property ++ Identifier.ofName q) ++ "), 0, 0)" := rfl
  rw [htext]
  simp only [String.toList_append, List.append_assoc]
  rfl

theorem classType?_newClassType (h : held.lookup (Identifier.ofName q) = some q) :
    classType? property held
      (Statement.newClassType (Variable.cls property q) ++ ";").toList = some q := by
  unfold classType?
  rw [toList_newClassType, between?_append]
  simp only [Option.bind_eq_bind, Option.bind_some, String.ofList_toList, h]

theorem typeValue?_of_toList {line : String} {value : List Char}
    (h : line.toList = ("zend_type " ++ Variable.type property ++ " = ").toList ++ value) :
    typeValue? property line = some value := by
  unfold typeValue?
  rw [h]
  exact List.dropPrefix?_append_of_beq _ (beq_self_eq_true _)

theorem toList_maskType (property : String) (m : TypeMask) :
    (Statement.maskType (Variable.type property) m).text.toList =
      ("zend_type " ++ Variable.type property ++ " = ").toList ++
        ("(zend_type) ZEND_TYPE_INIT_MASK(".toList ++ (m.expression.toList ++ ");".toList)) := by
  have htext : (Statement.maskType (Variable.type property) m).text =
      "zend_type " ++ Variable.type property ++ " = (zend_type) ZEND_TYPE_INIT_MASK(" ++
        m.expression ++ ");" := rfl
  rw [htext]
  simp only [String.toList_append, List.append_assoc]
  rfl

theorem single?_maskType (h : m.Named) :
    single? property held (Statement.maskType (Variable.type property) m).text =
      some ⟨[], m⟩ := by
  unfold single?
  simp only [typeValue?_of_toList (toList_maskType property m), Option.bind_eq_bind,
    Option.bind_some, between?_append, TypeMask.mask?_expression h, Option.map_some]

theorem toList_classType (property : String) (q : QualifiedName) :
    (Statement.classType (Variable.type property) (Variable.cls property q)).text.toList =
      ("zend_type " ++ Variable.type property ++ " = ").toList ++
        (Statement.newClassType (Variable.cls property q) ++ ";").toList := by
  rw [← String.toList_append, ← String.append_assoc]
  rfl

theorem single?_classType (h : held.lookup (Identifier.ofName q) = some q) :
    single? property held
      (Statement.classType (Variable.type property) (Variable.cls property q)).text =
        some ⟨[q], .empty⟩ := by
  have hmask : between? "(zend_type) ZEND_TYPE_INIT_MASK(" ");"
      (Statement.newClassType (Variable.cls property q) ++ ";").toList = none := by
    rw [toList_newClassType, String.toList_append]
    rfl
  unfold single?
  simp only [typeValue?_of_toList (toList_classType property q), Option.bind_eq_bind,
    Option.bind_some, hmask, classType?_newClassType h, Option.map_some]

theorem toList_makeList (property : String) (count : Nat) :
    (Statement.makeList (Variable.list property) count).text.toList =
      ("zend_type_list *" ++ Variable.list property ++ " = malloc(ZEND_TYPE_LIST_SIZE(").toList ++
        ((toString count).toList ++ "));".toList) := by
  rw [← String.toList_append, ← String.toList_append, ← String.append_assoc]
  rfl

theorem size?_makeList (count : Nat) :
    size? property (Statement.makeList (Variable.list property) count).text = some count := by
  unfold size?
  rw [toList_makeList, between?_append, Option.bind_some, number?_toString]

theorem count?_setCount (count : Nat) :
    count? property (Statement.setCount (Variable.list property) count).text = some count := by
  have htext : (Statement.setCount (Variable.list property) count).text =
      "" ++ Variable.list property ++ "->num_types = " ++ toString count ++ ";" := rfl
  unfold count?
  rw [htext, String.empty_append, String.toList_append, String.toList_append, List.append_assoc,
    between?_append, Option.bind_some, number?_toString]

theorem slot?_setSlot (h : held.lookup (Identifier.ofName q) = some q) (index : Nat) :
    slot? property held (Statement.setSlot (Variable.list property) index
      (Variable.cls property q)).text = some (index, q) := by
  have htext : (Statement.setSlot (Variable.list property) index
      (Variable.cls property q)).text = "" ++ Variable.list property ++ "->types[" ++
        toString index ++ "] = " ++ Statement.newClassType (Variable.cls property q) ++ ";" := rfl
  have htoList : (Statement.setSlot (Variable.list property) index
      (Variable.cls property q)).text.toList =
        (Variable.list property ++ "->types[").toList ++ ((toString index).toList ++
          ("] = ".toList ++ (Statement.newClassType (Variable.cls property q) ++ ";").toList)) := by
    rw [htext, String.empty_append]
    simp only [String.toList_append, List.append_assoc]
  have hdigits : ∀ c ∈ (toString index).toList, c.isDigit = true :=
    fun c hc => isDigit_of_mem_toString hc
  have htake : ∀ rest, ((toString index).toList ++ ("] = ".toList ++ rest)).takeWhile
      Char.isDigit = (toString index).toList :=
    fun rest => takeWhile_stop hdigits (d := ']') (by decide) _
  have hdrop : ∀ rest, ((toString index).toList ++ ("] = ".toList ++ rest)).dropWhile
      Char.isDigit = "] = ".toList ++ rest :=
    fun rest => dropWhile_stop hdigits (d := ']') (by decide) _
  unfold slot?
  rw [htoList]
  simp only [List.dropPrefix?_append_of_beq _ (beq_self_eq_true _), Option.bind_eq_bind,
    Option.bind_some, htake, hdrop, number?_toString, classType?_newClassType h]
  rfl

theorem union?_unionType (h : m.Named) :
    union? property (Statement.unionType (Variable.type property) (Variable.list property) m).text =
      some m := by
  have htext : (Statement.unionType (Variable.type property) (Variable.list property) m).text =
      "zend_type " ++ Variable.type property ++ " = ZEND_TYPE_INIT_UNION(" ++
        Variable.list property ++ ", " ++ m.expression ++ ");" := rfl
  have htoList : (Statement.unionType (Variable.type property) (Variable.list property)
      m).text.toList = ("zend_type " ++ Variable.type property ++ " = ").toList ++
        (("ZEND_TYPE_INIT_UNION(" ++ Variable.list property ++ ", ").toList ++
          (m.expression.toList ++ ");".toList)) := by
    rw [htext]
    simp only [String.toList_append, List.append_assoc]
    rfl
  unfold union?
  simp only [typeValue?_of_toList htoList, Option.bind_eq_bind, Option.bind_some, between?_append,
    TypeMask.mask?_expression h]

end made

def filling (property : String) (classes : List QualifiedName) : List Statement :=
  classes.zipIdx.map fun (q, index) =>
    .setSlot (Variable.list property) index (Variable.cls property q)

def listing (property : String) (classes : List QualifiedName) (m : TypeMask) : List Statement :=
  [.makeList (Variable.list property) classes.length,
    .setCount (Variable.list property) classes.length] ++ filling property classes ++
    [.unionType (Variable.type property) (Variable.list property) m]

section lines

variable {classes : List QualifiedName} {m : TypeMask}

theorem property?_single (hvalid : ∀ q ∈ classes, q.IsValid) {line : String} {rest : List Char}
    (hline : line.toList = "zend_type".toList ++ rest) {t : TypeReading}
    (h : single? property (table classes) line = some t) :
    property? property ((holding property classes).map (·.text) ++ [line]) = some ⟨t, none⟩ := by
  unfold property?
  rw [heldLines_append hvalid (held?_eq_none hline)]
  simp only [h, Option.map_some]

theorem mapM_slot? (hnodup : (classes.map Identifier.ofName).Nodup) :
    ((filling property classes).map (·.text)).mapM (slot? property (table classes)) =
      some (classes.zipIdx.map fun (q, index) => (index, q)) := by
  unfold filling
  rw [List.map_map]
  apply mapM_map
  intro entry hentry
  have hq : entry.1 ∈ classes := List.fst_mem_of_mem_zipIdx hentry
  exact slot?_setSlot (lookup_map_of_nodup hnodup hq) entry.2

theorem property?_listing (hvalid : ∀ q ∈ classes, q.IsValid)
    (hnodup : (classes.map Identifier.ofName).Nodup) (hm : m.Named) :
    property? property
      ((holding property classes).map (·.text) ++ (listing property classes m).map (·.text)) =
        some ⟨⟨classes, m⟩, some ⟨classes.length, classes.length,
          classes.zipIdx.map fun (q, index) => (index, q)⟩⟩ := by
  have hline : held? property
      (Statement.makeList (Variable.list property) classes.length).text = none := by
    apply held?_eq_none
    rw [toList_makeList, String.toList_append, String.toList_append, List.append_assoc,
      List.append_assoc]
    rfl
  have hlines : (listing property classes m).map (·.text) =
      (Statement.makeList (Variable.list property) classes.length).text ::
        (Statement.setCount (Variable.list property) classes.length).text ::
          ((filling property classes).map (·.text) ++
            [(Statement.unionType (Variable.type property) (Variable.list property) m).text]) := by
    unfold listing
    rw [List.map_append, List.map_append]
    rfl
  have hclasses : (classes.zipIdx.map fun (q, index) => (index, q)).map Prod.snd = classes := by
    rw [List.map_map]
    exact List.zipIdx_map_fst 0 classes
  unfold property?
  rw [hlines, heldLines_append hvalid hline]
  simp only [size?_makeList, count?_setCount, List.dropLast_concat, mapM_slot? hnodup,
    List.getLast?_concat, Option.bind_some, union?_unionType hm, Option.bind_eq_bind, hclasses]
  rfl

end lines

end Reading

end ExtensionHeader
