import ExtensionHeader.Proofs.Reading.Sections

/-! The lines of a header by which its sections refer to each other: what is defined or declared,
and what is named in rows of tables and in class entries. -/
namespace ExtensionHeader

open Header

namespace Reading

inductive Mark where
  /-- Argument information with a body of its own. -/
  | block (name : String)
  /-- Another name of argument information. -/
  | synonym (name target : String)
  | forward (handler : Handler)
  | table (name : String)
  /-- A row of a table. The row of an abstract method names a handler that there is none of. -/
  | row (argInfo : String) (handler : Handler) (isAbstract : Bool)
  /-- The methods that a class entry is made with. -/
  | entry (table : String)
deriving DecidableEq, Repr

namespace Mark

def blockForm : List Piece := [.text "(", .word, .text ", "]

def synonymForm : List Piece := [.text " ", .word, .text " ", .word]

def functionForm : List Piece := [.text "(", .word, .text ")", .text ";"]

def methodForm : List Piece := [.text "(", .word, .text ", ", .word, .text ")", .text ";"]

def tableForm : List Piece := [.text " const zend_function_entry ", .word, .text "[] = "]

def functionRowForm : List Piece := [.text "(", .word, .text ", ", .word, .text ")"]

def aliasRowForm : List Piece :=
  [.text "(", .literal, .text ", ", .word, .text ", ", .word, .text ", ", .word, .text ")"]

def methodRowForm : List Piece :=
  [.text "(", .word, .text ", ", .word, .text ", ", .word, .text ", "]

def entryForm : List Piece :=
  [.text "(", .text "ce", .text ", ", .literal, .text ", ", .word, .text ")"]

def namespacedEntryForm : List Piece :=
  [.text "(", .text "ce", .text ", ", .literal, .text ", ", .literal, .text ", ", .word, .text ")"]

def block? (line : List Char) : Option Mark :=
  match words? blockForm line with
  | some [name] => some (block name)
  | _ => none

def synonym? (line : List Char) : Option Mark :=
  match words? synonymForm line with
  | some [name, target] => some (synonym name target)
  | _ => none

def function? (line : List Char) : Option Mark :=
  match words? functionForm line with
  | some [name] => some (forward (.function name))
  | _ => none

def method? (line : List Char) : Option Mark :=
  match words? methodForm line with
  | some [cls, name] => some (forward (.method cls name))
  | _ => none

def table? (line : List Char) : Option Mark :=
  match words? tableForm line with
  | some [name] => some (table name)
  | _ => none

def functionRow? (line : List Char) : Option Mark :=
  match words? functionRowForm line with
  | some [name, argInfo] => some (row argInfo (.function name) false)
  | _ => none

def aliasRow? (line : List Char) : Option Mark :=
  match words? aliasRowForm line with
  | some [_, handler, argInfo] => some (row argInfo (.function handler) false)
  | _ => none

def methodRow? (isAbstract : Bool) (line : List Char) : Option Mark :=
  match words? methodRowForm line with
  | some [cls, name, argInfo] => some (row argInfo (.method cls name) isAbstract)
  | _ => none

def entry? (form : List Piece) (line : List Char) : Option Mark :=
  match words? form line with
  | some [name] => some (entry name)
  | _ => none

def readers : List (String × (List Char → Option Mark)) :=
  [("ZEND_BEGIN_ARG_INFO_EX", block?),
    ("ZEND_BEGIN_ARG_WITH_RETURN_TYPE_INFO_EX", block?),
    ("ZEND_BEGIN_ARG_WITH_RETURN_OBJ_INFO_EX", block?),
    ("ZEND_BEGIN_ARG_WITH_RETURN_TYPE_MASK_EX", block?),
    ("ZEND_BEGIN_ARG_WITH_RETURN_OBJ_TYPE_MASK_EX", block?),
    ("#define", synonym?),
    ("ZEND_FUNCTION", function?),
    ("ZEND_METHOD", method?),
    ("static", table?),
    ("ZEND_FE", functionRow?),
    ("ZEND_NS_FALIAS", aliasRow?),
    ("ZEND_ME", methodRow? false),
    ("ZEND_ABSTRACT_ME_WITH_FLAGS", methodRow? true),
    ("INIT_CLASS_ENTRY", entry? entryForm),
    ("INIT_NS_CLASS_ENTRY", entry? namespacedEntryForm)]

end Mark

def mark? (line : String) : Option Mark := byKeyword Mark.readers line

def marks (text : String) : List Mark := ((Text.lines text).map Text.flush).filterMap mark?

end Reading

namespace Header

def ArgInfo.mark : ArgInfo → Reading.Mark
  | block name _ => .block name
  | synonym name owner => .synonym name owner

def Entry.mark : Entry → Reading.Mark
  | function name argInfo => .row argInfo (.function name) false
  | namespaced _ _ handler argInfo => .row argInfo (.function handler) false
  | method cls name argInfo _ => .row argInfo (.method cls name) false
  | abstractMethod cls name argInfo _ => .row argInfo (.method cls name) true

def EntryTable.marks (t : EntryTable) : List Reading.Mark :=
  .table t.name :: t.entries.map (·.mark)

end Header

namespace Reading

section lines

variable {w s : String}

theorem mark?_of_reader {read : List Char → Option Mark} (hread : Mark.readers.lookup w = some read)
    (hw : IsKeyword w) (hs : IsStop s) (rest : String) :
    mark? (w ++ (s ++ rest)) = read (s ++ rest).toList := by
  unfold mark?
  rw [byKeyword_append hw hs, hread, Option.bind_some]

theorem mark?_eq_none (hread : Mark.readers.lookup w = none) (hw : IsKeyword w) (hs : IsStop s)
    (rest : String) : mark? (w ++ (s ++ rest)) = none := by
  unfold mark?
  rw [byKeyword_append hw hs, hread]
  rfl

theorem mark?_front {front : String} (hstop : front.toList.all isLeading = false)
    (hread : Mark.readers.lookup (String.ofList (front.toList.takeWhile isLeading)) = none)
    (rest : String) : mark? (front ++ rest) = none :=
  byKeyword_eq_none hstop hread rest

theorem mark?_block {name : String} (hread : Mark.readers.lookup w = some Mark.block?)
    (hw : IsKeyword w) (hname : IsWord name) (next : String) (args : List String) :
    mark? (call w (name :: next :: args)) = some (.block name) := by
  rw [call_cons w name (List.cons_ne_nil next args)]
  simp only [String.append_assoc]
  rw [mark?_of_reader hread hw (by decide)]
  unfold Mark.block? Mark.blockForm
  rw [words?_text, words?_word hname (by decide), words?_text]
  rfl

theorem isKeyword_family (t : ArgType) : IsKeyword t.family :=
  match t with
  | .untyped => (by decide : IsKeyword "INFO")
  | .code .. => (by decide : IsKeyword "TYPE_INFO")
  | .object .. => (by decide : IsKeyword "OBJ_INFO")
  | .mask _ => (by decide : IsKeyword "TYPE_MASK")
  | .objectMask .. => (by decide : IsKeyword "OBJ_TYPE_MASK")

theorem mark?_opening {name : String} (h : IsWord name) (s : Signature) :
    mark? (opening name s) = some (.block name) := by
  have hkeyword : ∀ t : ArgType, IsKeyword ("ZEND_BEGIN_ARG_WITH_RETURN_" ++ t.family ++ "_EX") :=
    fun t => isKeyword_append.mpr
      ⟨isKeyword_append.mpr ⟨by decide, isKeyword_family t⟩, by decide⟩
  unfold opening
  dsimp only
  cases ArgType.of s.returns? with
  | untyped => exact mark?_block rfl (by decide) h _ _
  | _ => exact mark?_block rfl (hkeyword _) h _ _

theorem mark?_call (hread : Mark.readers.lookup w = none) (hw : IsKeyword w)
    (args : List String) (rest : String) : mark? (call w args ++ rest) = none := by
  unfold call
  simp only [String.append_assoc]
  exact mark?_eq_none hread hw (by decide) _

theorem mark?_argumentCall {kind : String} (h : IsKeyword kind) (args : List String) :
    mark? (call ("ZEND_ARG_" ++ kind) args) = none := by
  have hcall : mark? (call ("ZEND_ARG_" ++ kind) args ++ "") = none :=
    mark?_call (lookup_append_eq_none (by decide) kind)
      (isKeyword_append.mpr ⟨by decide, h⟩) args ""
  rwa [String.append_empty] at hcall

theorem mark?_argument (p : Parameter) : mark? (argument p) = none := by
  have hfamily := isKeyword_family (ArgType.of p.type?)
  obtain ⟨kind, hname, hkind⟩ : ∃ kind, (if p.isVariadic then "ZEND_ARG_VARIADIC_" else
      "ZEND_ARG_") ++ (ArgType.of p.type?).family = "ZEND_ARG_" ++ kind ∧ IsKeyword kind := by
    cases p.isVariadic with
    | false => exact ⟨_, rfl, hfamily⟩
    | true =>
      have hsplit : "ZEND_ARG_VARIADIC_" = "ZEND_ARG_" ++ "VARIADIC_" := rfl
      refine ⟨"VARIADIC_" ++ (ArgType.of p.type?).family, ?_,
        isKeyword_append.mpr ⟨by decide, hfamily⟩⟩
      rw [if_pos rfl, hsplit, String.append_assoc]
  unfold argument
  dsimp only
  rw [hname]
  split
  · exact mark?_argumentCall hkind _
  · split
    · exact mark?_argumentCall hkind _
    · rw [String.append_assoc]
      exact mark?_argumentCall (isKeyword_append.mpr ⟨hkind, by decide⟩) _

theorem marks_argInfo {item : ArgInfo} (h : ∀ token ∈ item.tokens, IsWord token) :
    item.lines.filterMap (fun l => mark? l.text) = [item.mark] := by
  cases item with
  | block name signature =>
    have hname : IsWord name := h name List.mem_cons_self
    have harguments : (signature.parameters.map fun p => (⟨1, argument p⟩ : Text.Line)).filterMap
        (fun l => mark? l.text) = [] := by
      rw [List.filterMap_map, List.filterMap_eq_nil_iff]
      exact fun p _ => mark?_argument p
    show (Header.block name signature).filterMap _ = _
    unfold Header.block
    simp only [List.cons_append, List.filterMap_cons, List.filterMap_append, harguments,
      mark?_opening hname]
    rfl
  | synonym name owner =>
    have hname : IsWord name := h name List.mem_cons_self
    have howner : IsWord owner := h owner (List.mem_cons_of_mem _ List.mem_cons_self)
    have hline : mark? ("#define " ++ name ++ " " ++ owner) = some (.synonym name owner) := by
      have hsplit : "#define " = "#define" ++ " " := rfl
      rw [hsplit]
      simp only [String.append_assoc]
      rw [mark?_of_reader rfl (by decide) (by decide)]
      unfold Mark.synonym? Mark.synonymForm
      rw [words?_text, words?_word hname (by decide), words?_text, words?_word_end howner]
      rfl
    exact List.filterMap_cons_some hline

theorem mark?_handler {handler : Handler} (h : ∀ word ∈ handler.words, IsWord word) :
    mark? handler.line.text = some (.forward handler) := by
  cases handler with
  | function name =>
    have hname : IsWord name := h name List.mem_cons_self
    have htext : (Handler.function name).line.text =
        "ZEND_FUNCTION" ++ "(" ++ name ++ ")" ++ ";" := rfl
    rw [htext]
    simp only [String.append_assoc]
    rw [mark?_of_reader rfl (by decide) (by decide)]
    unfold Mark.function? Mark.functionForm
    rw [words?_text, words?_word hname (by decide), words?_text]
    rfl
  | method cls name =>
    have hcls : IsWord cls := h cls List.mem_cons_self
    have hname : IsWord name := h name (List.mem_cons_of_mem _ List.mem_cons_self)
    have htext : (Handler.method cls name).line.text =
        "ZEND_METHOD" ++ "(" ++ (cls ++ ", " ++ name) ++ ")" ++ ";" := rfl
    rw [htext]
    simp only [String.append_assoc]
    rw [mark?_of_reader rfl (by decide) (by decide)]
    unfold Mark.method? Mark.methodForm
    rw [words?_text, words?_word hcls (by decide), words?_text, words?_word hname (by decide),
      words?_text]
    rfl

theorem marks_methodRow (hread : Mark.readers.lookup w = some (Mark.methodRow? isAbstract))
    (hw : IsKeyword w) {cls name argInfo : String} (hcls : IsWord cls) (hname : IsWord name)
    (hargInfo : IsWord argInfo) (flags : String) :
    mark? (call w [cls, name, argInfo, flags]) =
      some (.row argInfo (.method cls name) isAbstract) := by
  have htext : call w [cls, name, argInfo, flags] =
      w ++ "(" ++ (cls ++ ", " ++ name ++ ", " ++ argInfo ++ ", " ++ flags) ++ ")" := rfl
  rw [htext]
  simp only [String.append_assoc]
  rw [mark?_of_reader hread hw (by decide)]
  unfold Mark.methodRow? Mark.methodRowForm
  rw [words?_text, words?_word hcls (by decide), words?_text, words?_word hname (by decide),
    words?_text, words?_word hargInfo (by decide), words?_text]
  rfl

theorem mark?_row {entry : Entry} (h : ∀ word ∈ entry.words, IsWord word) :
    mark? entry.text = some entry.mark := by
  cases entry with
  | function name argInfo =>
    obtain ⟨hname, hargInfo⟩ : IsWord name ∧ IsWord argInfo := by simpa [Entry.words] using h
    have htext : (Entry.function name argInfo).text =
        "ZEND_FE" ++ "(" ++ (name ++ ", " ++ argInfo) ++ ")" := rfl
    rw [htext]
    simp only [String.append_assoc]
    rw [mark?_of_reader rfl (by decide) (by decide)]
    unfold Mark.functionRow? Mark.functionRowForm
    rw [words?_text, words?_word hname (by decide), words?_text,
      words?_word_stop hargInfo (by decide)]
    rfl
  | namespaced path name handler argInfo =>
    obtain ⟨hname, hhandler, hargInfo⟩ : IsWord name ∧ IsWord handler ∧ IsWord argInfo := by
      simpa [Entry.words] using h
    have htext : (Entry.namespaced path name handler argInfo).text = "ZEND_NS_FALIAS" ++ "(" ++
        (Text.CLiteral.quote path ++ ", " ++ name ++ ", " ++ handler ++ ", " ++ argInfo) ++ ")" :=
      rfl
    rw [htext]
    simp only [String.append_assoc]
    rw [mark?_of_reader rfl (by decide) (by decide)]
    unfold Mark.aliasRow? Mark.aliasRowForm
    rw [words?_text, words?_literal, words?_text, words?_word hname (by decide), words?_text,
      words?_word hhandler (by decide), words?_text, words?_word_stop hargInfo (by decide)]
    rfl
  | method cls name argInfo flags =>
    obtain ⟨hcls, hname, hargInfo⟩ : IsWord cls ∧ IsWord name ∧ IsWord argInfo := by
      simpa [Entry.words] using h
    exact marks_methodRow rfl (by decide) hcls hname hargInfo flags.expression
  | abstractMethod cls name argInfo flags =>
    obtain ⟨hcls, hname, hargInfo⟩ : IsWord cls ∧ IsWord name ∧ IsWord argInfo := by
      simpa [Entry.words] using h
    exact marks_methodRow rfl (by decide) hcls hname hargInfo flags.expression

theorem marks_table {t : EntryTable} (hname : IsWord t.name)
    (h : ∀ entry ∈ t.entries, ∀ word ∈ entry.words, IsWord word) :
    t.lines.filterMap (fun l => mark? l.text) = t.marks := by
  have hfirst : mark? ("static const zend_function_entry " ++ t.name ++ "[] = \x7b") =
      some (.table t.name) := by
    have hfront : "static const zend_function_entry " =
        "static" ++ " const zend_function_entry " := rfl
    have hback : "[] = \x7b" = "[] = " ++ "\x7b" := rfl
    rw [hfront, hback]
    simp only [String.append_assoc]
    rw [mark?_of_reader rfl (by decide) (by decide)]
    unfold Mark.table? Mark.tableForm
    rw [words?_text, words?_word hname (by decide), words?_text]
    rfl
  have hrows : (t.entries.map fun entry => (⟨1, entry.text⟩ : Text.Line)).filterMap
      (fun l => mark? l.text) = t.entries.map (·.mark) := by
    rw [List.filterMap_map, ← List.filterMap_eq_map]
    apply List.filterMap_congr
    exact fun entry hentry => mark?_row (h entry hentry)
  have hlast : ([⟨1, "ZEND_FE_END"⟩, ⟨0, "\x7d;"⟩] : List Text.Line).filterMap
      (fun l => mark? l.text) = [] := rfl
  rw [EntryTable.lines_eq, List.cons_append, List.filterMap_cons]
  simp only [hfirst, List.filterMap_append, hrows, hlast, List.append_nil]
  rfl

theorem mark?_initEntry {q : QualifiedName} (h : IsWord (Identifier.methodTable q)) :
    mark? (Statement.initEntry q).text = some (.entry (Identifier.methodTable q)) := by
  unfold Statement.text
  dsimp only
  split
  · have htext : ∀ name methods : String, call "INIT_CLASS_ENTRY" ["ce", name, methods] ++ ";" =
        "INIT_CLASS_ENTRY" ++ "(" ++ ("ce" ++ ", " ++ name ++ ", " ++ methods) ++ ")" ++ ";" :=
      fun _ _ => rfl
    rw [htext]
    simp only [String.append_assoc]
    rw [mark?_of_reader rfl (by decide) (by decide)]
    unfold Mark.entry? Mark.entryForm
    rw [words?_text, words?_text, words?_text, words?_literal, words?_text,
      words?_word h (by decide), words?_text]
    rfl
  · have htext : ∀ path name methods : String,
        call "INIT_NS_CLASS_ENTRY" ["ce", path, name, methods] ++ ";" = "INIT_NS_CLASS_ENTRY" ++
          "(" ++ ("ce" ++ ", " ++ path ++ ", " ++ name ++ ", " ++ methods) ++ ")" ++ ";" :=
      fun _ _ _ => rfl
    rw [htext]
    simp only [String.append_assoc]
    rw [mark?_of_reader rfl (by decide) (by decide)]
    unfold Mark.entry? Mark.namespacedEntryForm
    rw [words?_text, words?_text, words?_text, words?_literal, words?_text, words?_literal,
      words?_text, words?_word h (by decide), words?_text]
    rfl

theorem marks_registerClass {c : Class} (h : IsWord (Identifier.methodTable c.name)) :
    (registerClass c).filterMap (fun s => mark? s.text) =
      [.entry (Identifier.methodTable c.name)] := by
  have hparent : mark? (Statement.register c.parent?).text = none := by
    have htext : (Statement.register c.parent?).text =
        "class_entry = zend_register_internal_class_ex(&ce, " ++
          (c.parent?.map Identifier.classHandle).getD "NULL" ++ ");" := rfl
    rw [htext, String.append_assoc]
    exact mark?_front (by decide) (by decide) _
  have hflags : mark? (Statement.addFlags (AccessFlags.ofClass c)).text = none := by
    have htext : (Statement.addFlags (AccessFlags.ofClass c)).text =
        "class_entry->ce_flags |= " ++ (AccessFlags.ofClass c).expression ++ ";" := rfl
    rw [htext, String.append_assoc]
    exact mark?_front (by decide) (by decide) _
  have hinterfaces : mark? (Statement.implement c.interfaces).text = none :=
    mark?_call rfl (by decide) _ _
  have hblank : mark? Statement.blank.text = none := rfl
  have hdeclare : mark? Statement.declareEntry.text = none := rfl
  unfold registerClass
  dsimp only
  split <;> split <;>
    simp [hparent, hflags, hinterfaces, hblank, hdeclare, mark?_initEntry h]

theorem mark?_of_declares {st : Statement} {name : String} (h : name ∈ st.declares) :
    mark? st.text = none := by
  have hstop : ∀ declarator ∈ declarators, declarator.toList.all isLeading = false := by decide
  have hread : ∀ declarator ∈ declarators, Mark.readers.lookup
      (String.ofList (declarator.toList.takeWhile isLeading)) = none := by decide
  obtain ⟨declarator, hmem, rest, htext⟩ := st.text_of_declares h
  rw [htext, String.append_assoc]
  exact mark?_front (hstop declarator hmem) (hread declarator hmem) _

theorem mark?_of_isFor {p : Property} (hname : IsWord p.name) {st : Statement} (h : st.IsFor p) :
    mark? st.text = none := by
  have hlist : ∀ front, IsStop front → ∀ rest,
      mark? (Variable.list p.name ++ (front ++ rest)) = none := by
    intro front hfront rest
    have hstem : Variable.list p.name = "property_" ++ (p.name ++ "_type_list") :=
      String.append_assoc
    have hkeyword : IsKeyword (p.name ++ "_type_list") :=
      isKeyword_append.mpr ⟨hname.isKeyword, by decide⟩
    rw [hstem]
    exact mark?_eq_none (lookup_append_eq_none (by decide) _)
      (isKeyword_append.mpr ⟨by decide, hkeyword⟩) hfront rest
  cases h with
  | blank => rfl
  | setValue initial =>
    cases initial with
    | bool value => cases value <;> exact mark?_call rfl (by decide) _ _
    | _ => exact mark?_call rfl (by decide) _ _
  | setCount count =>
    have htext : (Statement.setCount (Variable.list p.name) count).text =
        "" ++ Variable.list p.name ++ "->num_types = " ++ toString count ++ ";" := rfl
    rw [htext, String.empty_append]
    simp only [String.append_assoc]
    exact hlist _ (by decide) _
  | setSlot hq index =>
    have htext : ∀ handle, (Statement.setSlot (Variable.list p.name) index handle).text =
        "" ++ Variable.list p.name ++ "->types[" ++ toString index ++ "] = " ++
          Statement.newClassType handle ++ ";" := fun _ => rfl
    rw [htext, String.empty_append]
    simp only [String.append_assoc]
    exact hlist _ (by decide) _
  | giveText | declareProperty | releaseName | releaseClass =>
    exact mark?_call rfl (by decide) _ _
  | _ => exact mark?_of_declares List.mem_cons_self

theorem marks_routine {interner : Interner} {c : Class} {r : Routine} (hname : c.name.IsValid)
    (hnames : ∀ p ∈ c.properties, IsWord p.name) (h : Routine.ofClass interner c = .ok r) :
    r.lines.filterMap (fun l => mark? l.text) = [.entry (Identifier.methodTable c.name)] := by
  obtain ⟨statements, hs, -, rfl⟩ := ofClass_eq_ok h
  have hregister := marks_registerClass (isWord_of_isValid (Identifier.isValid_methodTable hname))
  have hdeclare : statements.filterMap (fun s => mark? s.text) = [] := by
    rw [List.filterMap_eq_nil_iff]
    intro s hmem
    obtain ⟨p, hp, hfor⟩ := isFor_declareProperties hs s hmem
    exact mark?_of_isFor (hnames p hp) hfor
  have hframe : ∀ rest, mark? ("static" ++ (" zend_class_entry *" ++ rest)) = none := by
    intro rest
    rw [mark?_of_reader rfl (by decide) (by decide)]
    unfold Mark.table? Mark.tableForm
    rw [words?_text_eq_none (by decide)]
  rw [Routine.filterMap_lines hframe rfl rfl, List.filterMap_append, List.filterMap_append,
    hregister, hdeclare]
  rfl

end lines

end Reading

end ExtensionHeader
