import ExtensionHeader.Proofs.Reading.ClassName
import ExtensionHeader.Proofs.Reading.OneLine
import ExtensionHeader.Proofs.Tokens

/-! The lines of sections. Each of them is one line of the text if the names in it are. -/
namespace ExtensionHeader

open Header Reading Text

/-- The names of a signature that are written as they stand: those of parameters and of classes. -/
structure Signature.Spelt (s : Signature) : Prop where
  parameter : ∀ p ∈ s.parameters, Identifier.isValid p.name = true
  type : ∀ p ∈ s.parameters, ∀ q ∈ (p.type?.map (·.classes)).getD [], q.IsValid
  result : ∀ q ∈ (s.returns?.map (·.classes)).getD [], q.IsValid

namespace Header

theorem isLine_call {name : String} (hname : IsLine name) {args : List String}
    (hargs : ∀ arg ∈ args, IsLine arg) : IsLine (call name args) := by
  unfold call
  simp only [isLine_append]
  exact ⟨⟨⟨hname, by decide⟩, isLine_intercalate (by decide) hargs⟩, by decide⟩

namespace ArgType

theorem isLine_className {q : QualifiedName} (h : q.IsValid) : IsLine (className q) := by
  intro c hc
  rw [toList_className] at hc
  rcases h.mem_doubled hc with hc | rfl
  · exact isLayout_eq_false (by decide) (by decide) hc
  · decide

theorem isLine_classNames {classes : List QualifiedName} (h : ∀ q ∈ classes, q.IsValid) :
    IsLine ("|".intercalate (classes.map className)) := by
  apply isLine_intercalate (by decide)
  rw [List.forall_mem_map]
  exact fun q hq => isLine_className (h q hq)

theorem isLine_family (t : ArgType) : IsLine t.family := by
  cases t
  · exact (by decide : IsLine "INFO")
  · exact (by decide : IsLine "TYPE_INFO")
  · exact (by decide : IsLine "OBJ_INFO")
  · exact (by decide : IsLine "TYPE_MASK")
  · exact (by decide : IsLine "OBJ_TYPE_MASK")

theorem isLine_code (kind : Scalar) (isNullable : Bool) :
    ∀ arg ∈ (code kind isNullable).arguments, IsLine arg := by
  have hcode : ∀ code : TypeCode, IsLine code.display := by
    intro code
    cases code <;> decide
  unfold arguments
  simp only [List.forall_mem_cons]
  exact ⟨hcode kind.code, isLine_bit isNullable, fun _ h => absurd h List.not_mem_nil⟩

theorem isLine_object {q : QualifiedName} (h : q.IsValid) (isNullable : Bool) :
    ∀ arg ∈ (object q isNullable).arguments, IsLine arg := by
  unfold arguments
  simp only [List.forall_mem_cons]
  exact ⟨isLine_className h, isLine_bit isNullable, fun _ h => absurd h List.not_mem_nil⟩

theorem isLine_mask (m : TypeMask) : ∀ arg ∈ (mask m).arguments, IsLine arg := by
  unfold arguments
  rw [List.forall_mem_singleton]
  exact m.isLine_expression

theorem isLine_objectMask {classes : List QualifiedName} (h : ∀ q ∈ classes, q.IsValid)
    (m : TypeMask) : ∀ arg ∈ (objectMask classes m).arguments, IsLine arg := by
  unfold arguments
  simp only [List.forall_mem_cons]
  exact ⟨isLine_classNames h, m.isLine_expression, fun _ h => absurd h List.not_mem_nil⟩

theorem isLine_arguments {type? : Option DeclaredType}
    (h : ∀ q ∈ (type?.map (·.classes)).getD [], q.IsValid) :
    ∀ arg ∈ (of type?).arguments, IsLine arg := by
  cases type? with
  | none => exact fun _ h => absurd h List.not_mem_nil
  | some type =>
    have hclasses : ∀ q ∈ type.classes, q.IsValid := h
    cases type with
    | scalar kind => exact isLine_code kind false
    | cls q => exact isLine_object (hclasses q List.mem_cons_self) false
    | union u =>
      have hunion : ∀ q ∈ u.classes, q.IsValid := hclasses
      show ∀ arg ∈ (ofUnion u).arguments, IsLine arg
      unfold ofUnion
      split
      · split
        · exact isLine_code _ _
        · split
          · split
            · exact isLine_code _ _
            · exact isLine_mask _
          · exact isLine_mask _
      · rename_i q hq
        rw [hq] at hunion
        split
        · exact isLine_object (hunion q List.mem_cons_self) _
        · exact isLine_objectMask hunion _
      · exact isLine_objectMask hunion _

end ArgType

theorem isLine_opening {name : String} (hname : IsLine name) {s : Signature} (h : s.Spelt) :
    IsLine (opening name s) := by
  have harguments := ArgType.isLine_arguments h.result
  unfold opening
  dsimp only
  split
  · apply isLine_call (by decide)
    simp +decide [hname]
  · apply isLine_call
    · simp +decide [ArgType.isLine_family]
    · simp only [List.forall_mem_append, List.forall_mem_cons]
      exact ⟨⟨hname, isLine_bit _, isLine_repr _, fun _ h => absurd h List.not_mem_nil⟩,
        harguments⟩

theorem isLine_argument {p : Parameter} (hname : Identifier.isValid p.name = true)
    (htype : ∀ q ∈ (p.type?.map (·.classes)).getD [], q.IsValid) : IsLine (argument p) := by
  have hfamily := ArgType.isLine_family (ArgType.of p.type?)
  have hfront : IsLine ((if p.isVariadic then "ZEND_ARG_VARIADIC_" else "ZEND_ARG_") ++
      (ArgType.of p.type?).family) := by
    rw [isLine_append]
    refine ⟨?_, hfamily⟩
    split <;> decide
  have harguments : ∀ arg ∈ [bit p.byReference, p.name] ++ (ArgType.of p.type?).arguments,
      IsLine arg := by
    simp only [List.forall_mem_append, List.forall_mem_cons]
    exact ⟨⟨isLine_bit _, isLine_of_isWord (isWord_of_isValid hname),
      fun _ h => absurd h List.not_mem_nil⟩, ArgType.isLine_arguments htype⟩
  have hmore : ∀ last, IsLine last →
      ∀ arg ∈ [bit p.byReference, p.name] ++ (ArgType.of p.type?).arguments ++ [last],
        IsLine arg := by
    intro last hlast
    rw [List.forall_mem_append, List.forall_mem_singleton]
    exact ⟨harguments, hlast⟩
  unfold argument
  dsimp only
  split
  · apply isLine_call hfront
    apply hmore
    cases p.default? with
    | none => decide
    | some value => exact isLine_quote _
  · cases p.default? with
    | none => exact isLine_call hfront harguments
    | some value =>
      exact isLine_call (isLine_append.mpr ⟨hfront, by decide⟩) (hmore _ (isLine_quote _))

theorem ArgInfo.isLine_text {item : ArgInfo} (htokens : ∀ token ∈ item.tokens, IsLine token)
    (hspelt : ∀ name s, item = .block name s → s.Spelt) : ∀ l ∈ item.lines, IsLine l.text := by
  cases item with
  | block name signature =>
    have h := hspelt name signature rfl
    have hname : IsLine name := htokens name List.mem_cons_self
    show ∀ l ∈ Header.block name signature, IsLine l.text
    unfold Header.block
    simp only [List.cons_append, List.forall_mem_cons, List.forall_mem_append, List.forall_mem_map]
    exact ⟨isLine_opening hname h, fun p hp => isLine_argument (h.parameter p hp) (h.type p hp),
      by decide, fun _ h => absurd h List.not_mem_nil⟩
  | synonym name owner =>
    obtain ⟨hname, howner⟩ : IsLine name ∧ IsLine owner := by simpa [ArgInfo.tokens] using htokens
    show ∀ l ∈ [(⟨0, "#define " ++ name ++ " " ++ owner⟩ : Line)], IsLine l.text
    simp +decide [hname, howner]

theorem Initial.isLine_store {target : String} (h : IsLine target) (initial : Initial) :
    IsLine (initial.store target) := by
  have htarget : IsLine ("&" ++ target) := isLine_append.mpr ⟨by decide, h⟩
  have hone : ∀ name, IsLine name → IsLine (call name ["&" ++ target]) := fun name hname =>
    isLine_call hname (List.forall_mem_singleton.mpr htarget)
  have htwo : ∀ name value, IsLine name → IsLine value →
      IsLine (call name ["&" ++ target, value]) := fun name value hname hvalue =>
    isLine_call hname (List.forall_mem_cons.mpr ⟨htarget, List.forall_mem_singleton.mpr hvalue⟩)
  cases initial with
  | undefined => exact hone _ (by decide)
  | null => exact hone _ (by decide)
  | bool value => cases value <;> exact hone _ (by decide)
  | long value =>
    refine htwo _ _ (by decide) ?_
    unfold longExpression
    split
    · decide
    · exact isLine_intToString _
  | double value =>
    refine htwo _ _ (by decide) ?_
    unfold doubleExpression
    split
    · decide
    · split
      · split <;> decide
      · exact value.isLine_text
  | emptyArray => exact hone _ (by decide)

theorem Statement.isLine_newClassType {handle : String} (h : IsLine handle) :
    IsLine (newClassType handle) := by
  show IsLine ("(zend_type) " ++ classMacro ++ "(zend_string_copy(" ++ handle ++ "), 0, 0)")
  simp +decide [classMacro, h]

theorem Statement.isLine_text {s : Statement} (h : ∀ token ∈ s.tokens, IsLine token) :
    IsLine s.text := by
  cases s with
  | blank | declareEntry | returnEntry => decide
  | initEntry q =>
    have hmethods : IsLine (Identifier.methodTable q) := h _ List.mem_cons_self
    unfold text
    dsimp only
    split <;> refine isLine_append.mpr ⟨isLine_call (by decide) ?_, by decide⟩ <;>
      simp +decide [hmethods]
  | register parent? =>
    have hparent : IsLine ((parent?.map Identifier.classHandle).getD "NULL") := by
      cases parent? with
      | none => decide
      | some q => exact h _ List.mem_cons_self
    show IsLine ("class_entry = zend_register_internal_class_ex(&ce, " ++
      (parent?.map Identifier.classHandle).getD "NULL" ++ ");")
    simp +decide [hparent]
  | addFlags flags =>
    show IsLine ("class_entry->ce_flags |= " ++ flags.expression ++ ";")
    simp +decide
  | implement interfaces =>
    refine isLine_append.mpr ⟨isLine_call (by decide) ?_, by decide⟩
    simp +decide only [List.cons_append, List.nil_append, List.forall_mem_cons, true_and]
    exact ⟨isLine_repr interfaces.length, h⟩
  | declareValue value =>
    show IsLine ("zval " ++ value ++ ";")
    simp +decide [h value List.mem_cons_self]
  | setValue value initial =>
    exact isLine_append.mpr ⟨initial.isLine_store (h value List.mem_cons_self), by decide⟩
  | makeString handle text | holdString handle text =>
    show IsLine ("zend_string *" ++ handle ++ " = " ++ ("zend_string_init(" ++
      CLiteral.quote text ++ ", sizeof(" ++ CLiteral.quote text ++ ") - 1, 1)") ++ ";")
    simp +decide [h handle List.mem_cons_self]
  | giveString value handle =>
    have hvalue := h value List.mem_cons_self
    have hhandle := h handle (List.mem_cons_of_mem _ List.mem_cons_self)
    refine isLine_append.mpr ⟨isLine_call (by decide) ?_, by decide⟩
    simp +decide [hvalue, hhandle]
  | untyped type =>
    show IsLine ("zend_type " ++ type ++ " = (zend_type) ZEND_TYPE_INIT_NONE(0);")
    simp +decide [h type List.mem_cons_self]
  | maskType type mask =>
    show IsLine ("zend_type " ++ type ++ " = (zend_type) ZEND_TYPE_INIT_MASK(" ++
      mask.expression ++ ");")
    simp +decide [h type List.mem_cons_self]
  | classType type handle =>
    have htype := h type List.mem_cons_self
    have hhandle := h handle (List.mem_cons_of_mem _ List.mem_cons_self)
    show IsLine ("zend_type " ++ type ++ " = " ++ newClassType handle ++ ";")
    simp +decide [htype, isLine_newClassType hhandle]
  | makeList list count =>
    show IsLine ("zend_type_list *" ++ list ++ " = malloc(ZEND_TYPE_LIST_SIZE(" ++
      toString count ++ "));")
    simp +decide [h list List.mem_cons_self]
  | setCount list count =>
    show IsLine ("" ++ list ++ "->num_types = " ++ toString count ++ ";")
    simp +decide [h list List.mem_cons_self]
  | setSlot list index handle =>
    have hlist := h list List.mem_cons_self
    have hhandle := h handle (List.mem_cons_of_mem _ List.mem_cons_self)
    show IsLine ("" ++ list ++ "->types[" ++ toString index ++ "] = " ++ newClassType handle ++ ";")
    simp +decide [hlist, isLine_newClassType hhandle]
  | unionType type list mask =>
    have htype := h type List.mem_cons_self
    have hlist := h list (List.mem_cons_of_mem _ List.mem_cons_self)
    show IsLine ("zend_type " ++ type ++ " = ZEND_TYPE_INIT_UNION(" ++ list ++ ", " ++
      mask.expression ++ ");")
    simp +decide [htype, hlist]
  | declareProperty name value flags type =>
    obtain ⟨hname, hvalue, htype⟩ : IsLine name ∧ IsLine value ∧ IsLine type := by
      simpa [tokens] using h
    refine isLine_append.mpr ⟨isLine_call (by decide) ?_, by decide⟩
    simp +decide [hname, hvalue, htype]
  | releaseString handle =>
    refine isLine_append.mpr ⟨isLine_call (by decide) ?_, by decide⟩
    simp [h handle List.mem_cons_self]

theorem Statement.text_line (s : Statement) : s.line.text = s.text := by
  cases s <;> rfl

def Routine.parameterText (r : Routine) : String :=
  match r.parameters with
  | [] => "void"
  | parameters => ", ".intercalate
      (parameters.map fun q => "zend_class_entry *" ++ Identifier.classHandle q)

theorem Routine.lines_eq (r : Routine) :
    r.lines = ⟨0, "static zend_class_entry *" ++ r.name ++ "(" ++ r.parameterText ++ ")"⟩ ::
      ⟨0, "\x7b"⟩ :: r.body.map (·.line) ++ [⟨0, "\x7d"⟩] :=
  rfl

theorem Routine.text_lines (r : Routine) :
    ∃ rest, r.lines.map (·.text) = ("static" ++ (" zend_class_entry *" ++ rest)) ::
      "\x7b" :: r.body.map (·.text) ++ ["\x7d"] := by
  have hsplit : "static zend_class_entry *" = "static" ++ " zend_class_entry *" := rfl
  have hbody : (r.body.map (·.line)).map (·.text) = r.body.map (·.text) := by
    rw [List.map_map]
    exact List.map_congr_left fun s _ => s.text_line
  refine ⟨r.name ++ ("(" ++ (r.parameterText ++ ")")), ?_⟩
  rw [lines_eq, List.map_append, List.map_cons, List.map_cons, hbody, hsplit]
  simp only [String.append_assoc]
  rfl

theorem Routine.filterMap_lines {read : String → Option α}
    (hfirst : ∀ rest, read ("static" ++ (" zend_class_entry *" ++ rest)) = none)
    (hopen : read "\x7b" = none) (hclose : read "\x7d" = none) (r : Routine) :
    (r.lines.filterMap fun l => read l.text) = r.body.filterMap fun s => read s.text := by
  obtain ⟨rest, htexts⟩ := r.text_lines
  have hlines : (r.lines.filterMap fun l => read l.text) =
      (r.lines.map (·.text)).filterMap read := List.filterMap_map.symm
  rw [hlines, htexts, List.cons_append, List.cons_append,
    List.filterMap_cons_none (hfirst rest), List.filterMap_cons_none hopen,
    List.filterMap_append, List.filterMap_map, List.filterMap_cons_none hclose]
  exact List.append_nil _

theorem isWord_stem {property : String} (h : IsWord property) : IsWord (Variable.stem property) :=
  isWord_append.mpr ⟨by decide, h⟩

theorem isWord_cls {property : String} (h : IsWord property) {q : QualifiedName} (hq : q.IsValid) :
    IsWord (Variable.cls property q) :=
  isWord_append.mpr ⟨isWord_append.mpr ⟨isWord_stem h, by decide⟩, isWord_ofName hq⟩

theorem Routine.isLine_parameterText {r : Routine}
    (h : ∀ q ∈ r.parameters, IsLine (Identifier.classHandle q)) : IsLine r.parameterText := by
  unfold parameterText
  split
  · decide
  · apply isLine_intercalate (by decide)
    rw [List.forall_mem_map]
    exact fun q hq => isLine_append.mpr ⟨by decide, h q hq⟩

theorem Routine.stands_text {r : Routine} (hname : Unbroken r.name)
    (hparameters : ∀ q ∈ r.parameters, IsLine (Identifier.classHandle q))
    (hbody : ∀ s ∈ r.body, Stands s.text) : ∀ l ∈ r.lines, Stands l.text := by
  have hfirst : Stands ("static zend_class_entry *" ++ r.name ++ "(" ++ r.parameterText ++ ")") := by
    simp only [String.append_assoc]
    apply stands_append (IsLine.stands (by decide)) (by decide)
    simp +decide [hname, (isLine_parameterText hparameters).unbroken]
  intro l hl
  rw [lines_eq] at hl
  simp only [List.cons_append, List.mem_cons, List.mem_append, List.mem_map, List.not_mem_nil,
    or_false] at hl
  rcases hl with rfl | rfl | ⟨s, hs, rfl⟩ | rfl
  · exact hfirst
  · exact IsLine.stands (by decide)
  · exact s.text_line ▸ hbody s hs
  · exact IsLine.stands (by decide)

theorem Statement.stands_initEntry {q : QualifiedName} (h : Unbroken (Identifier.ofName q)) :
    Stands (initEntry q).text := by
  have hmethods : Unbroken (Identifier.methodTable q) := by
    unfold Identifier.methodTable
    simp +decide [h]
  have hcall : ∀ {name : String} {args : List String}, Stands name → name.toList ≠ [] →
      (∀ arg ∈ args, Unbroken arg) → Stands (call name args ++ ";") := by
    intro name args hname hne hargs
    unfold call
    simp only [String.append_assoc]
    apply stands_append hname hne
    simp +decide [unbroken_intercalate _ hargs]
  have hquote : ∀ s, Unbroken (CLiteral.quote s) := fun s => (isLine_quote s).unbroken
  unfold text
  dsimp only
  split
  · refine hcall (IsLine.stands (by decide)) (by decide) ?_
    simp +decide [hmethods, hquote]
  · refine hcall (IsLine.stands (by decide)) (by decide) ?_
    simp +decide [hmethods, hquote]

/-- The name of the class is in two lines, which it may break. Everything else that stands in the
lines of the routine is made of words. -/
theorem stands_ofClass {interner : Interner} {c : Class} {r : Routine}
    (hname : Unbroken (Identifier.ofName c.name))
    (hnames : ∀ p ∈ c.properties, Identifier.isValid p.name = true)
    (hreferences : ∀ q ∈ c.references, q.IsValid) (h : Routine.ofClass interner c = .ok r) :
    ∀ l ∈ r.lines, Stands l.text := by
  obtain ⟨statements, hs, -, rfl⟩ := ofClass_eq_ok h
  have hsupertype : ∀ q ∈ c.supertypes, IsLine (Identifier.classHandle q) := fun q hq =>
    isLine_of_isWord (isWord_append.mpr
      ⟨by decide, isWord_ofName (hreferences q (List.mem_append_left _ hq))⟩)
  have hregister : ∀ s ∈ registerClass c, Stands s.text := by
    intro s hmem
    rcases eq_initEntry_or_tokens hmem with rfl | htokens
    · exact Statement.stands_initEntry hname
    · refine (Statement.isLine_text fun token htoken => ?_).stands
      obtain ⟨q, hq, rfl⟩ := htokens token htoken
      apply hsupertype
      rw [← uses_registerClass c]
      exact List.mem_flatMap.mpr ⟨s, hmem, hq⟩
  have hdeclare : ∀ s ∈ statements, Stands s.text := by
    intro s hmem
    obtain ⟨p, hp, hfor⟩ := isFor_declareProperties hs s hmem
    refine (Statement.isLine_text fun token htoken => isLine_of_isWord ?_).stands
    rcases hfor.tokens htoken with htoken | htoken
    · exact isWord_of_isValid (Identifier.isValid_of_mem_ownTokens (hnames p hp) htoken)
    · obtain ⟨q, hq, rfl⟩ := List.mem_map.mp htoken
      have hvalid := hreferences q (List.mem_append_right _ (List.mem_flatMap.mpr ⟨p, hp, hq⟩))
      exact isWord_cls (isWord_of_isValid (hnames p hp)) hvalid
  apply Routine.stands_text
  · exact unbroken_append.mpr ⟨by decide, hname⟩
  · exact fun q hq => hsupertype q (Sequence.mem_of_mem_firstBy hq)
  · rw [List.forall_mem_append, List.forall_mem_append, List.forall_mem_singleton]
    exact ⟨⟨hregister, hdeclare⟩, IsLine.stands (by decide)⟩

theorem EntryTable.lines_eq (t : EntryTable) :
    t.lines = ⟨0, "static const zend_function_entry " ++ t.name ++ "[] = \x7b"⟩ ::
      t.entries.map (fun entry => ⟨1, entry.text⟩) ++ [⟨1, "ZEND_FE_END"⟩, ⟨0, "\x7d;"⟩] :=
  rfl

def Handler.words : Handler → List String
  | function name => [name]
  | method cls name => [cls, name]

def Entry.words : Entry → List String
  | function name argInfo => [name, argInfo]
  | namespaced _ name handler argInfo => [name, handler, argInfo]
  | method cls name argInfo _ | abstractMethod cls name argInfo _ => [cls, name, argInfo]

theorem Handler.isLine_text {handler : Handler} (h : ∀ word ∈ handler.words, IsLine word) :
    IsLine handler.line.text := by
  cases handler with
  | function name => exact isLine_append.mpr ⟨isLine_call (by decide) h, by decide⟩
  | method cls name => exact isLine_append.mpr ⟨isLine_call (by decide) h, by decide⟩

theorem Entry.isLine_text {entry : Entry} (h : ∀ word ∈ entry.words, IsLine word) :
    IsLine entry.text := by
  have hflags : ∀ flags : AccessFlags, ∀ arg ∈ entry.words ++ [flags.expression], IsLine arg := by
    intro flags
    rw [List.forall_mem_append, List.forall_mem_singleton]
    exact ⟨h, flags.isLine_expression⟩
  cases entry with
  | function name argInfo => exact isLine_call (by decide) h
  | namespaced path name handler argInfo =>
    exact isLine_call (by decide) (List.forall_mem_cons.mpr ⟨isLine_quote path, h⟩)
  | method cls name argInfo flags => exact isLine_call (by decide) (hflags flags)
  | abstractMethod cls name argInfo flags => exact isLine_call (by decide) (hflags flags)

theorem EntryTable.isLine_text {t : EntryTable} (hname : IsLine t.name)
    (h : ∀ entry ∈ t.entries, ∀ word ∈ entry.words, IsLine word) :
    ∀ l ∈ t.lines, IsLine l.text := by
  rw [lines_eq]
  simp only [List.cons_append, List.forall_mem_cons, List.forall_mem_append, List.forall_mem_map]
  refine ⟨by simp +decide [hname], fun entry hentry => Entry.isLine_text (h entry hentry),
    by decide, by decide, fun _ h => absurd h List.not_mem_nil⟩

end Header

end ExtensionHeader
