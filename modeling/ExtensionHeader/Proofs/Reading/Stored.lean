import ExtensionHeader.Proofs.Handles
import ExtensionHeader.Proofs.Reading.Sections
import ExtensionHeader.Proofs.Reading.Value

/-! What the lines of a registration routine put into the variables for the values and the types of
properties: values of some kind, and masks. -/
namespace ExtensionHeader

open Header

namespace Reading

inductive Content where
  | value (target : String) (kind : Scalar)
  | mask (type : String) (m : TypeMask)
deriving DecidableEq, Repr

namespace Content

def isFor (property : String) : Content → Bool
  | value target _ => target = Variable.value property
  | mask type _ => type = Variable.type property

def value? (kind : Scalar) (line : List Char) : Option Content :=
  match words? [.text "(", .text "&", .word] line with
  | some [target] => some (value target kind)
  | _ => none

def made? (text : List Char) : Option TypeMask :=
  ((between? "(zend_type) ZEND_TYPE_INIT_MASK(" ");" text).or
    ((text.dropPrefix? "ZEND_TYPE_INIT_UNION(".toList).bind fun rest =>
      between? ", " ");" (rest.dropWhile Identifier.isContinuation))).bind mask?

def typed? (line : List Char) : Option Content := do
  let rest ← line.dropPrefix? " ".toList
  let text ← (rest.dropWhile Identifier.isContinuation).dropPrefix? " = ".toList
  let m ← made? text
  return mask (String.ofList (rest.takeWhile Identifier.isContinuation)) m

def readers : List (String × (List Char → Option Content)) :=
  [("ZVAL_NULL", value? .null), ("ZVAL_TRUE", value? .bool), ("ZVAL_FALSE", value? .bool),
    ("ZVAL_LONG", value? .int), ("ZVAL_DOUBLE", value? .float), ("ZVAL_STR", value? .string),
    ("ZVAL_EMPTY_ARRAY", value? .array), ("zend_type", typed?)]

end Content

def content? (line : String) : Option Content := byKeyword Content.readers line

end Reading

namespace Header.Statement

def firstWord : Statement → String
  | blank => ""
  | declareEntry => "zend_class_entry"
  | initEntry q => if q.isGlobal then "INIT_CLASS_ENTRY" else "INIT_NS_CLASS_ENTRY"
  | register _ | addFlags _ => "class_entry"
  | implement _ => "zend_class_implements"
  | declareValue _ => "zval"
  | setValue _ initial =>
    match initial with
    | .undefined => "ZVAL_UNDEF"
    | .null => "ZVAL_NULL"
    | .bool true => "ZVAL_TRUE"
    | .bool false => "ZVAL_FALSE"
    | .long _ => "ZVAL_LONG"
    | .double _ => "ZVAL_DOUBLE"
    | .emptyArray => "ZVAL_EMPTY_ARRAY"
  | makeString .. | holdString .. => "zend_string"
  | giveString .. => "ZVAL_STR"
  | untyped _ | maskType .. | classType .. | unionType .. => "zend_type"
  | makeList .. => "zend_type_list"
  | setCount list _ | setSlot list _ _ =>
    String.ofList (list.toList.takeWhile Reading.isLeading)
  | declareProperty .. => declareMacro
  | releaseString _ => "zend_string_release"
  | returnEntry => "return"

open Reading

theorem takeWhile_of_front {line : String} (word front rest : String)
    (hline : line = front ++ rest) (hstop : front.toList.all isLeading = false)
    (hword : front.toList.takeWhile isLeading = word.toList) :
    line.toList.takeWhile isLeading = word.toList := by
  rw [hline, takeWhile_front hstop, hword]

theorem takeWhile_call {name : String} (hname : IsKeyword name) (args : List String) :
    (call name args ++ ";").toList.takeWhile isLeading = name.toList := by
  unfold call
  simp only [String.append_assoc, String.toList_append]
  exact takeWhile_stop hname (d := '(') (by decide) _

theorem takeWhile_list {front : Char} (hfront : isLeading front = false) (list : String)
    (rest : List Char) : (list.toList ++ front :: rest).takeWhile isLeading =
      list.toList.takeWhile isLeading := by
  rw [List.takeWhile_append]
  split
  · rename_i hall
    rw [List.takeWhile_cons_of_neg (by simp [hfront]), List.append_nil,
      (List.takeWhile_sublist isLeading).eq_of_length hall]
  · rfl

theorem takeWhile_text (s : Statement) :
    s.text.toList.takeWhile isLeading = s.firstWord.toList := by
  cases s with
  | blank | declareEntry | returnEntry => decide
  | initEntry q =>
    unfold text firstWord
    dsimp only
    split <;> exact takeWhile_call (by decide) _
  | register parent? =>
    exact takeWhile_of_front "class_entry" "class_entry = zend_register_internal_class_ex(&ce, " _
      String.append_assoc (by decide) (by decide)
  | addFlags flags =>
    exact takeWhile_of_front "class_entry" "class_entry->ce_flags |= " _ String.append_assoc
      (by decide) (by decide)
  | declareValue value =>
    exact takeWhile_of_front "zval" "zval " _ String.append_assoc (by decide) (by decide)
  | setValue value initial =>
    cases initial with
    | bool value => cases value <;> exact takeWhile_call (by decide) _
    | _ => exact takeWhile_call (by decide) _
  | makeString handle text | holdString handle text =>
    exact takeWhile_of_front "zend_string" "zend_string *"
      (handle ++ " = " ++ newString text ++ ";")
      (by simp only [← String.append_assoc]; rfl) (by decide) (by decide)
  | untyped type =>
    exact takeWhile_of_front "zend_type" "zend_type " _ String.append_assoc (by decide) (by decide)
  | maskType type m =>
    exact takeWhile_of_front "zend_type" "zend_type "
      (type ++ " = (zend_type) ZEND_TYPE_INIT_MASK(" ++ m.expression ++ ");")
      (by simp only [← String.append_assoc]; rfl) (by decide) (by decide)
  | classType type handle =>
    exact takeWhile_of_front "zend_type" "zend_type "
      (type ++ " = " ++ newClassType handle ++ ";")
      (by simp only [← String.append_assoc]; rfl) (by decide) (by decide)
  | unionType type list m =>
    exact takeWhile_of_front "zend_type" "zend_type "
      (type ++ " = ZEND_TYPE_INIT_UNION(" ++ list ++ ", " ++ m.expression ++ ");")
      (by simp only [← String.append_assoc]; rfl) (by decide) (by decide)
  | makeList list count =>
    exact takeWhile_of_front "zend_type_list" "zend_type_list *"
      (list ++ " = malloc(ZEND_TYPE_LIST_SIZE(" ++ toString count ++ "));")
      (by simp only [← String.append_assoc]; rfl) (by decide) (by decide)
  | setCount list count =>
    have htext : (setCount list count).text =
        "" ++ list ++ "->num_types = " ++ toString count ++ ";" := rfl
    rw [htext, String.empty_append]
    simp only [String.append_assoc, String.toList_append]
    exact (takeWhile_list (by decide) list _).trans String.toList_ofList.symm
  | setSlot list index handle =>
    have htext : (setSlot list index handle).text = "" ++ list ++ "->types[" ++ toString index ++
        "] = " ++ newClassType handle ++ ";" := rfl
    rw [htext, String.empty_append]
    simp only [String.append_assoc, String.toList_append]
    exact (takeWhile_list (by decide) list _).trans String.toList_ofList.symm
  | implement | giveString | declareProperty | releaseString =>
    exact takeWhile_call (by decide) _

theorem byKeyword_text_eq_none {s : Statement}
    {readers : List (String × (List Char → Option α))}
    (h : readers.lookup s.firstWord = none) : byKeyword readers s.text = none := by
  unfold byKeyword
  rw [s.takeWhile_text, String.ofList_toList, h]
  rfl

def content? : Statement → Option Content
  | setValue value initial => initial.value?.map fun stored => .value value stored.kind
  | giveString value _ => some (.value value .string)
  | maskType type m | unionType type _ m => (mask? m.expression.toList).map (.mask type)
  | _ => none

end Header.Statement

namespace Reading

open Statement

section lines

variable {v w : String}

theorem content?_value {name : String} {kind : Scalar} (hname : IsKeyword name)
    (hread : Content.readers.lookup name = some (Content.value? kind)) (hv : IsWord v)
    (hs : IsStop w) (rest : String) :
    content? (name ++ ("(" ++ ("&" ++ (v ++ (w ++ rest))))) = some (.value v kind) := by
  unfold content?
  rw [byKeyword_append hname (by decide), hread, Option.bind_some]
  unfold Content.value?
  rw [words?_text, words?_text, words?_word hv hs]
  rfl

theorem content?_nullary {name : String} {kind : Scalar} (hname : IsKeyword name)
    (hread : Content.readers.lookup name = some (Content.value? kind)) (hv : IsWord v) :
    content? (call name ["&" ++ v] ++ ";") = some (.value v kind) := by
  have hline : call name ["&" ++ v] ++ ";" = name ++ "(" ++ ("&" ++ v) ++ ")" ++ ";" := rfl
  rw [hline]
  simp only [String.append_assoc]
  exact content?_value hname hread hv (by decide) _

theorem content?_binary {name : String} {kind : Scalar} (hname : IsKeyword name)
    (hread : Content.readers.lookup name = some (Content.value? kind)) (hv : IsWord v)
    (argument : String) :
    content? (call name ["&" ++ v, argument] ++ ";") = some (.value v kind) := by
  have hline : call name ["&" ++ v, argument] ++ ";" =
      name ++ "(" ++ ("&" ++ v ++ ", " ++ argument) ++ ")" ++ ";" := rfl
  rw [hline]
  simp only [String.append_assoc]
  exact content?_value hname hread hv (by decide) _

theorem content?_setValue (hv : IsWord v) (initial : Initial) :
    content? (setValue v initial).text = (setValue v initial).content? := by
  cases initial with
  | undefined => exact byKeyword_text_eq_none rfl
  | null | emptyArray => exact content?_nullary (by decide) rfl hv
  | bool value => cases value <;> exact content?_nullary (by decide) rfl hv
  | long value | double value => exact content?_binary (by decide) rfl hv _

theorem made?_mask (m : TypeMask) : Content.made? ("(zend_type) ZEND_TYPE_INIT_MASK(".toList ++
    (m.expression.toList ++ ");".toList)) = mask? m.expression.toList := by
  unfold Content.made?
  rw [between?_append]
  rfl

theorem made?_union (hw : IsWord w) (m : TypeMask) :
    Content.made? ("ZEND_TYPE_INIT_UNION(".toList ++ (w.toList ++ (", ".toList ++
      (m.expression.toList ++ ");".toList)))) = mask? m.expression.toList := by
  have hmask : ∀ rest, between? "(zend_type) ZEND_TYPE_INIT_MASK(" ");"
      ("ZEND_TYPE_INIT_UNION(".toList ++ rest) = none := fun _ => rfl
  have hdrop : ∀ rest, (w.toList ++ (", ".toList ++ rest)).dropWhile Identifier.isContinuation =
      ", ".toList ++ rest := fun _ => dropWhile_stop hw (d := ',') (by decide) _
  unfold Content.made?
  rw [hmask, Option.none_or, List.dropPrefix?_append_of_beq _ (beq_self_eq_true _),
    Option.bind_some, hdrop, between?_append]
  rfl

theorem content?_type (hv : IsWord v) (text : String) :
    content? ("zend_type" ++ (" " ++ (v ++ (" = " ++ text)))) =
      (Content.made? text.toList).map (.mask v) := by
  have htake : ∀ rest, (v.toList ++ (" = ".toList ++ rest)).takeWhile Identifier.isContinuation =
      v.toList := fun _ => takeWhile_stop hv (d := ' ') (by decide) _
  have hdrop : ∀ rest, (v.toList ++ (" = ".toList ++ rest)).dropWhile Identifier.isContinuation =
      " = ".toList ++ rest := fun _ => dropWhile_stop hv (d := ' ') (by decide) _
  have hread : Content.readers.lookup "zend_type" = some Content.typed? := rfl
  unfold content?
  rw [byKeyword_append (by decide) (by decide), hread, Option.bind_some]
  unfold Content.typed?
  simp only [String.toList_append, List.dropPrefix?_append_of_beq _ (beq_self_eq_true _),
    Option.bind_eq_bind, Option.bind_some, htake, hdrop, String.ofList_toList]
  cases Content.made? text.toList <;> rfl

theorem content?_maskType (hv : IsWord v) (m : TypeMask) :
    content? (maskType v m).text = (maskType v m).content? := by
  have hline : (maskType v m).text = "zend_type" ++ " " ++ v ++
      (" = " ++ "(zend_type) ZEND_TYPE_INIT_MASK(") ++ m.expression ++ ");" := rfl
  rw [hline]
  simp only [String.append_assoc]
  rw [content?_type hv]
  simp only [String.toList_append, made?_mask]
  rfl

theorem content?_unionType (hv : IsWord v) (hw : IsWord w) (m : TypeMask) :
    content? (unionType v w m).text = (unionType v w m).content? := by
  have hline : (unionType v w m).text = "zend_type" ++ " " ++ v ++
      (" = " ++ "ZEND_TYPE_INIT_UNION(") ++ w ++ ", " ++ m.expression ++ ");" := rfl
  rw [hline]
  simp only [String.append_assoc]
  rw [content?_type hv]
  simp only [String.toList_append, made?_union hw]
  rfl

theorem content?_untyped (hv : IsWord v) : content? (untyped v).text = none := by
  have hline : (untyped v).text =
      "zend_type" ++ " " ++ v ++ (" = " ++ "(zend_type) ZEND_TYPE_INIT_NONE(0);") := rfl
  rw [hline]
  simp only [String.append_assoc]
  exact content?_type hv _

theorem content?_classType (hv : IsWord v) (handle : String) :
    content? (classType v handle).text = none := by
  have hline : (classType v handle).text = "zend_type" ++ " " ++ v ++ " = " ++
      ("(zend_type) " ++ "ZEND_TYPE_INIT_CLASS" ++ "(zend_string_copy(" ++ handle ++ "), 0, 0)") ++
        ";" := rfl
  rw [hline]
  simp only [String.append_assoc]
  rw [content?_type hv]
  simp only [String.toList_append]
  rfl

end lines

end Reading

namespace Header.Statement.IsFor

open Reading

variable {p : Property} {s : Statement}

theorem lookup_list (hname : IsWord p.name) : Content.readers.lookup
    (String.ofList ((Variable.list p.name).toList.takeWhile isLeading)) = none := by
  have hlist : IsWord (Variable.list p.name) := isWord_append.mpr ⟨isWord_stem hname, by decide⟩
  have hstem : Variable.list p.name = "property_" ++ (p.name ++ "_type_list") :=
    String.append_assoc
  rw [List.takeWhile_eq_self_iff.mpr hlist.isKeyword, String.ofList_toList, hstem]
  exact lookup_append_eq_none (by decide) _

theorem content?_text (hname : IsWord p.name) (h : s.IsFor p) :
    Reading.content? s.text = s.content? := by
  have hstem := isWord_stem hname
  have hvalue : IsWord (Variable.value p.name) := isWord_append.mpr ⟨hstem, by decide⟩
  have htype : IsWord (Variable.type p.name) := isWord_append.mpr ⟨hstem, by decide⟩
  have hlist : IsWord (Variable.list p.name) := isWord_append.mpr ⟨hstem, by decide⟩
  cases h with
  | setValue initial => exact content?_setValue hvalue initial
  | giveText => exact content?_binary (by decide) rfl hvalue _
  | untyped => exact content?_untyped htype
  | maskType m => exact content?_maskType htype m
  | classType => exact content?_classType htype _
  | unionType m => exact content?_unionType htype hlist m
  | setCount => exact byKeyword_text_eq_none (lookup_list hname)
  | setSlot => exact byKeyword_text_eq_none (lookup_list hname)
  | _ => exact byKeyword_text_eq_none rfl

theorem isFor_content {content : Content} (h : s.IsFor p) (hcontent : s.content? = some content) :
    content.isFor p.name = true := by
  cases h with
  | setValue initial =>
    obtain ⟨stored, -, rfl⟩ := Option.map_eq_some_iff.mp hcontent
    exact decide_eq_true rfl
  | giveText =>
    cases hcontent
    exact decide_eq_true rfl
  | maskType m | unionType m =>
    obtain ⟨read, -, rfl⟩ := Option.map_eq_some_iff.mp hcontent
    exact decide_eq_true rfl
  | _ => contradiction

end Header.Statement.IsFor

open Reading

namespace Property

/-- The value that is stored for the property. Without a default there is only that of an untyped
property. -/
def value? (p : Property) : Option Content :=
  match p.default? with
  | none => if p.type?.isSome then none else some (.value (Variable.value p.name) .null)
  | some v => v.kind?.map (.value (Variable.value p.name))

def mask? (p : Property) : Option Content :=
  match p.type? with
  | none | some (.cls _) => none
  | some t => (Reading.mask? t.mask.expression.toList).map (.mask (Variable.type p.name))

def contents (p : Property) : List Content := p.value?.toList ++ p.mask?.toList

end Property

namespace Header

theorem contents_storeDefault {p : Property} {statements : List Statement}
    (h : storeDefault p = .ok statements) :
    statements.filterMap (·.content?) = p.value?.toList := by
  unfold storeDefault at h
  unfold Property.value?
  cases hd : p.default? with
  | none =>
    simp only [hd, Except.ok.injEq] at h
    subst h
    cases p.type?.isSome <;> rfl
  | some value =>
    cases value <;> simp only [hd, Except.ok.injEq, reduceCtorEq] at h <;> subst h <;> rfl

theorem contents_makes {p : Property} {statements : List Statement} (h : p.Makes statements) :
    statements.filterMap (·.content?) = p.mask?.toList := by
  unfold Property.mask?
  cases h with
  | untyped ht | cls ht =>
    rw [ht]
    rfl
  | @mask type ht hclasses =>
    rw [ht]
    cases type with
    | cls q => exact absurd ((Property.classes_eq ht).symm.trans hclasses) (List.cons_ne_nil q [])
    | scalar | union => exact List.filterMap_cons
  | union ht =>
    rw [ht]
    have hslots : (p.classes.zipIdx.map fun entry => Statement.setSlot (Variable.list p.name)
        entry.2 (Variable.cls p.name entry.1)).filterMap (·.content?) = [] := by
      rw [List.filterMap_map]
      exact List.filterMap_eq_nil_iff.mpr fun _ _ => rfl
    simp only [List.filterMap_append, hslots]
    rfl

theorem contents_declareProperty {interner : Interner} {p : Property}
    {statements : List Statement} (h : declareProperty interner p = .ok statements) :
    ∃ before after, statements = before ++ p.declaration :: after ∧
      before.filterMap (·.content?) = p.contents ∧ after.filterMap (·.content?) = [] := by
  obtain ⟨value, make, text, hvalue, hmake, rfl⟩ := declareProperty_cases h
  have hhold : (p.classes.map fun q => Statement.holdString (Variable.cls p.name q)
      (text q)).filterMap (·.content?) = [] := by
    rw [List.filterMap_map]
    exact List.filterMap_eq_nil_iff.mpr fun _ _ => rfl
  refine ⟨.declareValue (Variable.value p.name) :: value ++
    .holdString (Variable.name p.name) p.name ::
      p.classes.map (fun q => .holdString (Variable.cls p.name q) (text q)) ++ make,
    .releaseString (Variable.name p.name) ::
      p.classes.map (fun q => .releaseString (Variable.cls p.name q)) ++ [.blank], by simp, ?_, ?_⟩
  · simp only [List.filterMap_append, List.filterMap_cons, contents_storeDefault hvalue, hhold,
      contents_makes hmake, Property.contents]
    simp [Statement.content?]
  · simp [Statement.content?]

theorem declareProperties_append_cons {interner : Interner} {first last : List Property}
    {p : Property} {statements : List Statement}
    (h : declareProperties interner (first ++ p :: last) = .ok statements) :
    ∃ before own after, declareProperties interner first = .ok before ∧
      declareProperty interner p = .ok own ∧ declareProperties interner last = .ok after ∧
      statements = before ++ own ++ after := by
  induction first generalizing statements with
  | nil =>
    simp only [List.nil_append, declareProperties, bind_eq_ok_iff] at h
    obtain ⟨own, hown, after, hafter, hs⟩ := h
    exact ⟨[], own, after, rfl, hown, hafter, (Except.ok.inj hs).symm⟩
  | cons q rest ih =>
    simp only [List.cons_append, declareProperties, bind_eq_ok_iff] at h
    obtain ⟨leading, hleading, others, hothers, hs⟩ := h
    obtain ⟨before, own, after, hbefore, hown, hafter, rfl⟩ := ih hothers
    refine ⟨leading ++ before, own, after, ?_, hown, hafter, ?_⟩
    · simp only [declareProperties, hleading, hbefore]
      rfl
    · rw [← Except.ok.inj hs]
      simp only [List.append_assoc]

theorem content?_of_mem_registerClass {c : Class} {s : Statement} (h : s ∈ registerClass c) :
    Reading.content? s.text = none := by
  apply Statement.byKeyword_text_eq_none
  simp only [registerClass, List.mem_append, List.mem_cons, List.not_mem_nil, or_false] at h
  rcases h with (((rfl | rfl | rfl | rfl) | hflags) | hinterfaces) | rfl
  · rfl
  · rfl
  · unfold Statement.firstWord
    dsimp only
    split <;> rfl
  · rfl
  · split at hflags
    · exact absurd hflags List.not_mem_nil
    · rw [List.mem_singleton.mp hflags]
      rfl
  · split at hinterfaces
    · exact absurd hinterfaces List.not_mem_nil
    · rw [List.mem_singleton.mp hinterfaces]
      rfl
  · rfl

end Header

namespace Reading

def contentsFor (property : String) (lines : List String) : List Content :=
  (lines.filterMap content?).filter (·.isFor property)

section contentsFor

variable {property : String}

theorem contentsFor_append (lines others : List String) :
    contentsFor property (lines ++ others) =
      contentsFor property lines ++ contentsFor property others := by
  unfold contentsFor
  rw [List.filterMap_append, List.filter_append]

theorem contentsFor_eq_nil {lines : List String}
    (h : ∀ line ∈ lines, ∀ content, content? line = some content →
      content.isFor property = false) : contentsFor property lines = [] := by
  unfold contentsFor
  rw [List.filter_eq_nil_iff]
  intro content hcontent hfor
  obtain ⟨line, hline, hread⟩ := List.mem_filterMap.mp hcontent
  rw [h line hline content hread] at hfor
  contradiction

theorem contentsFor_of_none {lines : List String} (h : ∀ line ∈ lines, content? line = none) :
    contentsFor property lines = [] := by
  apply contentsFor_eq_nil
  intro line hline content hread
  rw [h line hline] at hread
  contradiction

theorem Content.isFor_inj {other : String} {content : Content}
    (h : content.isFor property = true) (h' : content.isFor other = true) : property = other := by
  cases content <;>
    exact Variable.stem_inj ((String.append_left_inj _).mp
      ((of_decide_eq_true h).symm.trans (of_decide_eq_true h')))

theorem contentsFor_own {p : Property} {statements : List Statement} (hname : IsWord p.name)
    (h : ∀ s ∈ statements, s.IsFor p) :
    contentsFor p.name (statements.map (·.text)) = statements.filterMap (·.content?) := by
  have hread : (statements.map (·.text)).filterMap content? =
      statements.filterMap (·.content?) := by
    rw [List.filterMap_map]
    exact List.filterMap_congr fun s hs => (h s hs).content?_text hname
  unfold contentsFor
  rw [hread, List.filter_eq_self]
  intro content hcontent
  obtain ⟨s, hs, hsome⟩ := List.mem_filterMap.mp hcontent
  exact (h s hs).isFor_content hsome

theorem contentsFor_others {interner : Interner} {properties : List Property}
    {statements : List Statement} (h : declareProperties interner properties = .ok statements)
    (hnames : ∀ q ∈ properties, IsWord q.name) (hne : ∀ q ∈ properties, q.name ≠ property) :
    contentsFor property (statements.map (·.text)) = [] := by
  apply contentsFor_eq_nil
  rw [List.forall_mem_map]
  intro s hs content hread
  obtain ⟨q, hq, hfor⟩ := isFor_declareProperties h s hs
  rw [hfor.content?_text (hnames q hq)] at hread
  rw [← Bool.not_eq_true]
  exact fun hproperty => hne q hq (Content.isFor_inj (hfor.isFor_content hread) hproperty)

end contentsFor

end Reading

namespace Property

/-- When the lines come to the declaration of the property, they have put the contents into its
variables, and later they put nothing there. -/
def IsDeclaredWith (p : Property) (contents : List Content) (lines : List String) : Prop :=
  ∃ before after, lines = before ++ p.declaration.text :: after ∧
    contentsFor p.name before = contents ∧ contentsFor p.name after = []

variable {p : Property}

theorem IsDeclaredWith.frame {contents : List Content} {lines first last : List String}
    (h : p.IsDeclaredWith contents lines) (hfirst : contentsFor p.name first = [])
    (hlast : contentsFor p.name last = []) :
    p.IsDeclaredWith contents (first ++ lines ++ last) := by
  obtain ⟨before, after, rfl, hbefore, hafter⟩ := h
  refine ⟨first ++ before, after ++ last, by simp, ?_, ?_⟩
  · rw [contentsFor_append, hfirst, hbefore, List.nil_append]
  · rw [contentsFor_append, hafter, hlast, List.nil_append]

theorem isDeclaredWith_declareProperty {interner : Interner} {statements : List Statement}
    (hname : IsWord p.name) (h : declareProperty interner p = .ok statements) :
    p.IsDeclaredWith p.contents (statements.map (·.text)) := by
  have hfor := isFor_declareProperty h
  obtain ⟨before, after, rfl, hbefore, hafter⟩ := contents_declareProperty h
  rw [List.forall_mem_append, List.forall_mem_cons] at hfor
  refine ⟨before.map (·.text), after.map (·.text), by rw [List.map_append, List.map_cons], ?_, ?_⟩
  · rw [contentsFor_own hname hfor.1, hbefore]
  · rw [contentsFor_own hname hfor.2.2, hafter]

/-- In the routine of a class, each property is declared with its own contents. -/
theorem isDeclaredWith_ofClass {interner : Interner} {c : Class} {r : Routine}
    (hnames : ∀ q ∈ c.properties, IsWord q.name) (nodup : (c.properties.map (·.name)).Nodup)
    (hp : p ∈ c.properties) (h : Routine.ofClass interner c = .ok r) :
    p.IsDeclaredWith p.contents (r.lines.map (·.text)) := by
  obtain ⟨statements, hs, -, rfl⟩ := ofClass_eq_ok h
  obtain ⟨first, last, hproperties⟩ := List.append_of_mem hp
  rw [hproperties] at hs hnames nodup
  obtain ⟨before, own, after, hbefore, hown, hafter, rfl⟩ := declareProperties_append_cons hs
  rw [List.forall_mem_append, List.forall_mem_cons] at hnames
  rw [List.map_append, List.map_cons, List.nodup_middle, List.nodup_cons, List.mem_append,
    not_or] at nodup
  have hfirst : ∀ q ∈ first, q.name ≠ p.name := fun q hq heq =>
    nodup.1.1 (List.mem_map.mpr ⟨q, hq, heq⟩)
  have hlast : ∀ q ∈ last, q.name ≠ p.name := fun q hq heq =>
    nodup.1.2 (List.mem_map.mpr ⟨q, hq, heq⟩)
  obtain ⟨rest, hlines⟩ := Routine.text_lines
    { name := Identifier.registration c.name
      parameters := Sequence.firstBy (·.folded) c.supertypes
      body := registerClass c ++ (before ++ own ++ after) ++ [.returnEntry] }
  have hopening : content? ("static" ++ (" zend_class_entry *" ++ rest)) = none := by
    unfold content?
    rw [byKeyword_append (by decide) (by decide)]
    rfl
  have hregister : ∀ line ∈ (registerClass c).map (·.text), content? line = none :=
    List.forall_mem_map.mpr fun s hs => content?_of_mem_registerClass hs
  have hleading : contentsFor p.name (("static" ++ (" zend_class_entry *" ++ rest)) :: "\x7b" ::
      (registerClass c).map (·.text) ++ before.map (·.text)) = [] := by
    rw [contentsFor_append, contentsFor_others hbefore hnames.1 hfirst, List.append_nil]
    apply contentsFor_of_none
    rw [List.forall_mem_cons, List.forall_mem_cons]
    exact ⟨hopening, rfl, hregister⟩
  have htrailing : contentsFor p.name
      (after.map (·.text) ++ [Statement.returnEntry.text, "\x7d"]) = [] := by
    rw [contentsFor_append, contentsFor_others hafter hnames.2.2 hlast, List.nil_append]
    rfl
  have hdeclared := isDeclaredWith_declareProperty hnames.2.1 hown
  rw [hlines]
  simpa using hdeclared.frame hleading htrailing

end Property

end ExtensionHeader
