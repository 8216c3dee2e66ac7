import ExtensionHeader.Proofs.Reading.Sections

/-! What the lines of a registration routine do to the strings and lists that the routine makes. The
first word of a line tells what it does; only the lines that fill a list begin with a name. -/
namespace ExtensionHeader

open Header

namespace Reading

inductive Act where
  | hold (handle : String)
  | allocate (list : String)
  /-- The value owns the string from here on. -/
  | give (value handle : String)
  /-- The type owns the list from here on. -/
  | hand (type list : String)
  /-- A type takes a reference of its own to the string. -/
  | copy (handle : String)
  | declare (name value : String)
  | release (handle : String)
deriving DecidableEq, Repr

namespace Act

def handle : Act → String
  | hold handle | allocate handle | give _ handle | hand _ handle | copy handle
  | declare handle _ | release handle => handle

/-- The act ends what the routine owes to the handle. -/
def settles (handle : String) : Act → Bool
  | give _ settled | hand _ settled | release settled => settled = handle
  | _ => false

def string? : Act → Option String
  | hold handle => some handle
  | _ => none

def list? : Act → Option String
  | allocate list => some list
  | _ => none

def holdForm : List Piece := [.text " *", .word, .text " = ", .text "zend_string_init("]

def allocateForm : List Piece := [.text " *", .word, .text " = malloc(ZEND_TYPE_LIST_SIZE("]

def giveForm : List Piece :=
  [.text "(", .text "&", .word, .text ", ", .word, .text ")", .text ";"]

def declareForm : List Piece :=
  [.text "(", .text "class_entry", .text ", ", .word, .text ", ", .text "&", .word, .text ", "]

def releaseForm : List Piece := [.text "(", .word, .text ")", .text ";"]

def handForm : List Piece :=
  [.text " ", .word, .text " = ", .text "ZEND_TYPE_INIT_UNION(", .word, .text ", "]

def copyForm : List Piece :=
  [.text "(zend_type) ", .text "ZEND_TYPE_INIT_CLASS", .text "(zend_string_copy(", .word,
    .text "), 0, 0)", .text ";"]

def typeForm : List Piece := [.text " ", .word, .text " = "] ++ copyForm

def slotForm : List Piece := [.word, .text "->types[", .word, .text "] = "] ++ copyForm

def held? (line : List Char) : Option Act :=
  match words? holdForm line with
  | some [handle] => some (hold handle)
  | _ => none

def allocated? (line : List Char) : Option Act :=
  match words? allocateForm line with
  | some [list] => some (allocate list)
  | _ => none

def given? (line : List Char) : Option Act :=
  match words? giveForm line with
  | some [value, handle] => some (give value handle)
  | _ => none

def declared? (line : List Char) : Option Act :=
  match words? declareForm line with
  | some [name, value] => some (declare name value)
  | _ => none

def released? (line : List Char) : Option Act :=
  match words? releaseForm line with
  | some [handle] => some (release handle)
  | _ => none

def typed? (line : List Char) : Option Act :=
  match words? handForm line, words? typeForm line with
  | some [type, list], _ => some (hand type list)
  | _, some [_, handle] => some (copy handle)
  | _, _ => none

def slot? (line : List Char) : Option Act :=
  match words? slotForm line with
  | some [_, _, handle] => some (copy handle)
  | _ => none

def readers : List (String × (List Char → Option Act)) :=
  [("zend_string", held?), ("zend_type_list", allocated?), ("ZVAL_STR", given?),
    ("zend_type", typed?), ("zend_declare_typed_property", declared?),
    ("zend_string_release", released?)]

end Act

def act? (line : String) : Option Act :=
  (byKeyword Act.readers line).or (Act.slot? line.toList)

/-- What the lines of a text do, in order. -/
def acts (text : String) : List Act := ((Text.lines text).map Text.flush).filterMap act?

end Reading

def Header.Statement.act? : Statement → Option Reading.Act
  | makeString handle _ | holdString handle _ => some (.hold handle)
  | giveString value handle => some (.give value handle)
  | classType _ handle | setSlot _ _ handle => some (.copy handle)
  | makeList list _ => some (.allocate list)
  | unionType type list _ => some (.hand type list)
  | declareProperty name value _ _ => some (.declare name value)
  | releaseString handle => some (.release handle)
  | _ => none

namespace Reading

section lines

variable {w s t v x y : String}

theorem act?_append (hw : IsKeyword w) (hs : IsStop s) (rest : String) :
    act? (w ++ (s ++ rest)) = ((Act.readers.lookup w).bind (· (s ++ rest).toList)).or
      (Act.slot? (w ++ (s ++ rest)).toList) := by
  unfold act?
  rw [byKeyword_append hw hs]

theorem act?_of_reader {read : List Char → Option Act} {act : Act} {rest : String}
    (hread : Act.readers.lookup w = some read) (hw : IsKeyword w) (hs : IsStop s)
    (h : read (s ++ rest).toList = some act) : act? (w ++ (s ++ rest)) = some act := by
  rw [act?_append hw hs, hread, Option.bind_some, h, Option.some_or]

theorem slot?_eq_none (hw : IsWord w) (hs : IsStop s) (hdiffer : Differ s "->types[")
    (rest : String) : Act.slot? (w ++ (s ++ rest)).toList = none := by
  unfold Act.slot? Act.slotForm
  rw [List.cons_append, words?_word hw hs, List.cons_append, words?_text_eq_none hdiffer]
  rfl

theorem act?_eq_none (hread : Act.readers.lookup w = none) (hw : IsWord w) (hs : IsStop s)
    (hdiffer : Differ s "->types[") (rest : String) : act? (w ++ (s ++ rest)) = none := by
  rw [act?_append hw.isKeyword hs, hread, slot?_eq_none hw hs hdiffer]
  rfl

theorem act?_hold (hw : IsWord w) (text : String) :
    act? (Statement.holdString w text).text = some (.hold w) := by
  have htext : (Statement.holdString w text).text = "zend_string" ++ " *" ++ w ++ " = " ++
      ("zend_string_init(" ++ Text.CLiteral.quote text ++ ", sizeof(" ++
        Text.CLiteral.quote text ++ ") - 1, 1)") ++ ";" := rfl
  rw [htext]
  simp only [String.append_assoc]
  apply act?_of_reader rfl (by decide) (by decide)
  unfold Act.held? Act.holdForm
  rw [words?_text, words?_word hw (by decide), words?_text, words?_text]
  rfl

theorem act?_allocate (hw : IsWord w) (count : Nat) :
    act? (Statement.makeList w count).text = some (.allocate w) := by
  have htext : (Statement.makeList w count).text = "zend_type_list" ++ " *" ++ w ++
      " = malloc(ZEND_TYPE_LIST_SIZE(" ++ toString count ++ "));" := rfl
  rw [htext]
  simp only [String.append_assoc]
  apply act?_of_reader rfl (by decide) (by decide)
  unfold Act.allocated? Act.allocateForm
  rw [words?_text, words?_word hw (by decide), words?_text]
  rfl

theorem act?_give (hv : IsWord v) (hw : IsWord w) :
    act? (Statement.giveString v w).text = some (.give v w) := by
  have htext : (Statement.giveString v w).text =
      "ZVAL_STR" ++ "(" ++ ("&" ++ v ++ ", " ++ w) ++ ")" ++ ";" := rfl
  rw [htext]
  simp only [String.append_assoc]
  apply act?_of_reader rfl (by decide) (by decide)
  unfold Act.given? Act.giveForm
  rw [words?_text, words?_text, words?_word hv (by decide), words?_text,
    words?_word hw (by decide), words?_text]
  rfl

theorem act?_declare (hw : IsWord w) (hv : IsWord v) (flags : AccessFlags) (type : String) :
    act? (Statement.declareProperty w v flags type).text = some (.declare w v) := by
  have htext : (Statement.declareProperty w v flags type).text =
      "zend_declare_typed_property" ++ "(" ++ ("class_entry" ++ ", " ++ w ++ ", " ++ ("&" ++ v) ++
        ", " ++ flags.expression ++ ", " ++ "NULL" ++ ", " ++ type) ++ ")" ++ ";" := rfl
  rw [htext]
  simp only [String.append_assoc]
  apply act?_of_reader rfl (by decide) (by decide)
  unfold Act.declared? Act.declareForm
  rw [words?_text, words?_text, words?_text, words?_word hw (by decide), words?_text, words?_text,
    words?_word hv (by decide), words?_text]
  rfl

theorem act?_release (hw : IsWord w) :
    act? (Statement.releaseString w).text = some (.release w) := by
  have htext : (Statement.releaseString w).text =
      "zend_string_release" ++ "(" ++ w ++ ")" ++ ";" := rfl
  rw [htext]
  simp only [String.append_assoc]
  apply act?_of_reader rfl (by decide) (by decide)
  unfold Act.released? Act.releaseForm
  rw [words?_text, words?_word hw (by decide), words?_text]
  rfl

theorem act?_hand (hv : IsWord v) (hw : IsWord w) (mask : TypeMask) :
    act? (Statement.unionType v w mask).text = some (.hand v w) := by
  have htext : (Statement.unionType v w mask).text = "zend_type" ++ " " ++ v ++
      (" = " ++ "ZEND_TYPE_INIT_UNION(") ++ w ++ ", " ++ mask.expression ++ ");" := rfl
  rw [htext]
  simp only [String.append_assoc]
  apply act?_of_reader rfl (by decide) (by decide)
  unfold Act.typed? Act.handForm
  rw [words?_text, words?_word hv (by decide), words?_text, words?_text,
    words?_word hw (by decide), words?_text]
  rfl

theorem words?_copyForm (hw : IsWord w) :
    words? Act.copyForm ("(zend_type) " ++ ("ZEND_TYPE_INIT_CLASS" ++ ("(zend_string_copy(" ++
      (w ++ ("), 0, 0)" ++ ";"))))).toList = some [w] := by
  unfold Act.copyForm
  rw [words?_text, words?_text, words?_text, words?_word hw (by decide), words?_text]
  rfl

theorem typed?_of_differ (hv : IsWord v) (hs : Differ s "ZEND_TYPE_INIT_UNION(")
    (rest : String) : Act.typed? (" " ++ (v ++ (" = " ++ (s ++ rest)))).toList =
      match words? Act.copyForm (s ++ rest).toList with
      | some [handle] => some (.copy handle)
      | _ => none := by
  unfold Act.typed? Act.handForm Act.typeForm
  rw [words?_text, words?_word hv (by decide), words?_text, words?_text_eq_none hs,
    List.cons_append,
    List.cons_append, List.cons_append, List.nil_append, words?_text, words?_word hv (by decide),
    words?_text]
  rcases words? Act.copyForm (s ++ rest).toList with _ | _ | ⟨_, _ | _⟩ <;> rfl

theorem act?_copy (hv : IsWord v) (hw : IsWord w) :
    act? (Statement.classType v w).text = some (.copy w) := by
  have htext : (Statement.classType v w).text = "zend_type" ++ " " ++ v ++ " = " ++
      ("(zend_type) " ++ "ZEND_TYPE_INIT_CLASS" ++ "(zend_string_copy(" ++ w ++ "), 0, 0)") ++
        ";" := rfl
  rw [htext]
  simp only [String.append_assoc]
  apply act?_of_reader rfl (by decide) (by decide)
  rw [typed?_of_differ hv (by decide), words?_copyForm hw]

theorem act?_typed_eq_none (hv : IsWord v) {rest : String}
    (h : words? Act.copyForm ("(zend_type) " ++ rest).toList = none) :
    act? ("zend_type" ++ (" " ++ (v ++ (" = " ++ ("(zend_type) " ++ rest))))) = none := by
  have hread : Act.readers.lookup "zend_type" = some Act.typed? := rfl
  rw [act?_append (by decide) (by decide), hread, Option.bind_some,
    typed?_of_differ hv (by decide), h,
    slot?_eq_none (by decide) (by decide) (by decide)]
  rfl

theorem act?_untyped (hv : IsWord v) : act? (Statement.untyped v).text = none := by
  have htext : (Statement.untyped v).text = "zend_type" ++ " " ++ v ++
      (" = " ++ ("(zend_type) " ++ "ZEND_TYPE_INIT_NONE(0);")) := rfl
  rw [htext]
  simp only [String.append_assoc]
  apply act?_typed_eq_none hv
  rfl

theorem act?_maskType (hv : IsWord v) (mask : TypeMask) :
    act? (Statement.maskType v mask).text = none := by
  have htext : (Statement.maskType v mask).text = "zend_type" ++ " " ++ v ++
      (" = " ++ ("(zend_type) " ++ "ZEND_TYPE_INIT_MASK(")) ++ mask.expression ++ ");" := rfl
  rw [htext]
  simp only [String.append_assoc]
  apply act?_typed_eq_none hv
  unfold Act.copyForm
  rw [words?_text, words?_text_eq_none (by decide)]

theorem lookup_stem (rest : String) : Act.readers.lookup ("property_" ++ rest) = none :=
  lookup_append_eq_none (by decide) rest

theorem act?_slot (hw : IsWord ("property_" ++ v)) (hy : IsWord y) (index : Nat) :
    act? (Statement.setSlot ("property_" ++ v) index y).text = some (.copy y) := by
  have hindex : IsWord (toString index) := by
    intro c hc
    unfold Identifier.isContinuation Char.isAlphanum
    rw [isDigit_of_mem_toString hc, Bool.or_true, Bool.true_or]
  have htext : (Statement.setSlot ("property_" ++ v) index y).text =
      "" ++ ("property_" ++ v) ++ "->types[" ++ toString index ++ "] = " ++
        ("(zend_type) " ++ "ZEND_TYPE_INIT_CLASS" ++ "(zend_string_copy(" ++ y ++ "), 0, 0)") ++
          ";" := rfl
  rw [htext, String.empty_append]
  generalize hlist : "property_" ++ v = list at hw
  have hread : Act.readers.lookup list = none := hlist ▸ lookup_stem v
  simp only [String.append_assoc]
  rw [act?_append hw.isKeyword (by decide), hread]
  unfold Act.slot? Act.slotForm
  rw [List.cons_append, words?_word hw (by decide), List.cons_append, words?_text,
    List.cons_append, words?_word hindex (by decide), List.cons_append, words?_text,
    List.nil_append, words?_copyForm hy]
  rfl

theorem act?_setCount (hw : IsWord ("property_" ++ v)) (count : Nat) :
    act? (Statement.setCount ("property_" ++ v) count).text = none := by
  have htext : (Statement.setCount ("property_" ++ v) count).text =
      "" ++ ("property_" ++ v) ++ "->num_types = " ++ toString count ++ ";" := rfl
  rw [htext, String.empty_append]
  generalize hlist : "property_" ++ v = list at hw
  have hread : Act.readers.lookup list = none := hlist ▸ lookup_stem v
  simp only [String.append_assoc]
  exact act?_eq_none hread hw (by decide) (by decide) _

theorem act?_call (hw : IsWord w) (hread : Act.readers.lookup w = none) (args : List String) :
    act? (call w args ++ ";") = none := by
  unfold call
  simp only [String.append_assoc]
  exact act?_eq_none hread hw (by decide) (by decide) _

theorem act?_setValue (target : String) (initial : Initial) :
    act? (Statement.setValue target initial).text = none := by
  cases initial with
  | bool value => cases value <;> exact act?_call (by decide) rfl _
  | _ => exact act?_call (by decide) rfl _

theorem act?_initEntry (q : QualifiedName) : act? (Statement.initEntry q).text = none := by
  unfold Statement.text
  dsimp only
  split <;> exact act?_call (by decide) rfl _

theorem act?_register (parent? : Option QualifiedName) :
    act? (Statement.register parent?).text = none := by
  have htext : (Statement.register parent?).text = "class_entry" ++
      " = zend_register_internal_class_ex(&ce, " ++
        (parent?.map Identifier.classHandle).getD "NULL" ++ ");" := rfl
  rw [htext]
  simp only [String.append_assoc]
  exact act?_eq_none rfl (by decide) (by decide) (by decide) _

theorem act?_addFlags (flags : AccessFlags) : act? (Statement.addFlags flags).text = none := by
  have htext : (Statement.addFlags flags).text =
      "class_entry" ++ "->ce_flags |= " ++ flags.expression ++ ";" := rfl
  rw [htext]
  simp only [String.append_assoc]
  exact act?_eq_none rfl (by decide) (by decide) (by decide) _

end lines

end Reading

namespace Header

open Reading

theorem act?_of_mem_registerClass {c : Class} {s : Statement} (h : s ∈ registerClass c) :
    Reading.act? s.text = none := by
  simp only [registerClass, List.mem_append, List.mem_cons, List.not_mem_nil, or_false] at h
  rcases h with (((rfl | rfl | rfl | rfl) | hflags) | hinterfaces) | rfl
  · rfl
  · rfl
  · exact act?_initEntry c.name
  · exact act?_register c.parent?
  · split at hflags
    · exact absurd hflags List.not_mem_nil
    · rw [List.mem_singleton.mp hflags]
      exact act?_addFlags _
  · split at hinterfaces
    · exact absurd hinterfaces List.not_mem_nil
    · rw [List.mem_singleton.mp hinterfaces]
      exact act?_call (by decide) rfl _
  · rfl

theorem Statement.IsFor.act? {p : Property} (hname : IsWord p.name)
    (hclasses : ∀ q ∈ p.classes, q.IsValid) {s : Statement} (h : s.IsFor p) :
    Reading.act? s.text = s.act? := by
  have hstem := isWord_stem hname
  have hvalue : IsWord (Variable.value p.name) := isWord_append.mpr ⟨hstem, by decide⟩
  have htext : IsWord (Variable.text p.name) := isWord_append.mpr ⟨hvalue, by decide⟩
  have hown : IsWord (Variable.name p.name) := isWord_append.mpr ⟨hstem, by decide⟩
  have htype : IsWord (Variable.type p.name) := isWord_append.mpr ⟨hstem, by decide⟩
  have hlist : IsWord (Variable.list p.name) := isWord_append.mpr ⟨hstem, by decide⟩
  have hstemmed : Variable.list p.name = "property_" ++ (p.name ++ "_type_list") :=
    String.append_assoc
  have hcls : ∀ q ∈ p.classes, IsWord (Variable.cls p.name q) := fun q hq =>
    isWord_cls hname (hclasses q hq)
  cases h with
  | blank => rfl
  | declareValue =>
    have hline : (Statement.declareValue (Variable.value p.name)).text =
        "zval" ++ " " ++ Variable.value p.name ++ ";" := rfl
    rw [hline]
    simp only [String.append_assoc]
    exact act?_eq_none rfl (by decide) (by decide) (by decide) _
  | setValue initial => exact act?_setValue _ initial
  | makeText text => exact act?_hold htext text
  | giveText => exact act?_give hvalue htext
  | holdName => exact act?_hold hown p.name
  | holdClass hq text => exact act?_hold (hcls _ hq) text
  | untyped => exact act?_untyped htype
  | maskType mask => exact act?_maskType htype mask
  | classType hq => exact act?_copy htype (hcls _ hq)
  | makeList count => exact act?_allocate hlist count
  | setCount count =>
    rw [hstemmed] at hlist ⊢
    exact act?_setCount hlist count
  | setSlot hq index =>
    rw [hstemmed] at hlist ⊢
    exact act?_slot hlist (hcls _ hq) index
  | unionType mask => exact act?_hand htype hlist mask
  | declareProperty flags => exact act?_declare hown hvalue flags _
  | releaseName => exact act?_release hown
  | releaseClass hq => exact act?_release (hcls _ hq)

end Header

end ExtensionHeader
