import ExtensionHeader.AccessFlags
import ExtensionHeader.Ownership
import ExtensionHeader.Header.ArgInfo

/-! The statements of registration routines. What a statement declares, which classes it uses and
what it does to the ownership of heap values is told by functions on statements. -/
namespace ExtensionHeader.Header

/-! The names of the variables that a routine uses for a property. -/
namespace Variable

def stem (property : String) : String := "property_" ++ property

def value (property : String) : String := stem property ++ "_default_value"

def text (property : String) : String := value property ++ "_str"

def name (property : String) : String := stem property ++ "_name"

def type (property : String) : String := stem property ++ "_type"

def list (property : String) : String := stem property ++ "_type_list"

def cls (property : String) (q : QualifiedName) : String :=
  stem property ++ "_class_" ++ Identifier.ofName q

end Variable

inductive Initial where
  | undefined
  | null
  | bool (value : Bool)
  | long (value : Int64)
  | double (value : Binary64)
  | emptyArray
deriving DecidableEq, Repr, Inhabited

namespace Initial

/-- The least integer has no literal of its own in C. -/
def longExpression (value : Int64) : String :=
  if value = Int64.minValue then "ZEND_LONG_MIN" else toString value.toInt

def doubleExpression (value : Binary64) : String :=
  if value.isNaN then "ZEND_NAN"
  else if value.isInfinite then
    if value.isNegative then "-ZEND_INFINITY" else "ZEND_INFINITY"
  else value.text

def store (target : String) : Initial → String
  | undefined => call "ZVAL_UNDEF" ["&" ++ target]
  | null => call "ZVAL_NULL" ["&" ++ target]
  | bool true => call "ZVAL_TRUE" ["&" ++ target]
  | bool false => call "ZVAL_FALSE" ["&" ++ target]
  | long value => call "ZVAL_LONG" ["&" ++ target, longExpression value]
  | double value => call "ZVAL_DOUBLE" ["&" ++ target, doubleExpression value]
  | emptyArray => call "ZVAL_EMPTY_ARRAY" ["&" ++ target]

end Initial

inductive Statement where
  | blank
  | declareEntry
  | initEntry (cls : QualifiedName)
  | register (parent? : Option QualifiedName)
  | addFlags (flags : AccessFlags)
  | implement (interfaces : List QualifiedName)
  | declareValue (value : String)
  | setValue (value : String) (initial : Initial)
  /-- Makes a string for a value to own. -/
  | makeString (handle text : String)
  | giveString (value handle : String)
  /-- Makes a string that the routine holds until it releases it. -/
  | holdString (handle text : String)
  | untyped (type : String)
  | maskType (type : String) (mask : TypeMask)
  | classType (type handle : String)
  | makeList (list : String) (count : Nat)
  | setCount (list : String) (count : Nat)
  | setSlot (list : String) (index : Nat) (handle : String)
  | unionType (type list : String) (mask : TypeMask)
  | declareProperty (name value : String) (flags : AccessFlags) (type : String)
  | releaseString (handle : String)
  | returnEntry
deriving DecidableEq, Repr, Inhabited

namespace Statement

def declareMacro : String := "zend_declare_typed_property"

def classMacro : String := "ZEND_TYPE_INIT_CLASS"

def newString (text : String) : String :=
  let literal := Text.CLiteral.quote text
  s!"zend_string_init({literal}, sizeof({literal}) - 1, 1)"

def newClassType (handle : String) : String :=
  s!"(zend_type) {classMacro}(zend_string_copy({handle}), 0, 0)"

def text : Statement → String
  | blank => ""
  | declareEntry => "zend_class_entry ce, *class_entry;"
  | initEntry q =>
    let name := Text.CLiteral.quote q.name
    let methods := Identifier.methodTable q
    if q.isGlobal then call "INIT_CLASS_ENTRY" ["ce", name, methods] ++ ";"
    else call "INIT_NS_CLASS_ENTRY"
      ["ce", Text.CLiteral.quote q.namespaceText, name, methods] ++ ";"
  | register parent? =>
    let parent := (parent?.map Identifier.classHandle).getD "NULL"
    s!"class_entry = zend_register_internal_class_ex(&ce, {parent});"
  | addFlags flags => s!"class_entry->ce_flags |= {flags.expression};"
  | implement interfaces => call "zend_class_implements"
      (["class_entry", toString interfaces.length] ++ interfaces.map Identifier.classHandle) ++ ";"
  | declareValue value => s!"zval {value};"
  | setValue value initial => initial.store value ++ ";"
  | makeString handle text | holdString handle text =>
    s!"zend_string *{handle} = {newString text};"
  | giveString value handle => call "ZVAL_STR" ["&" ++ value, handle] ++ ";"
  | untyped type => s!"zend_type {type} = (zend_type) ZEND_TYPE_INIT_NONE(0);"
  | maskType type mask =>
    s!"zend_type {type} = (zend_type) ZEND_TYPE_INIT_MASK({mask.expression});"
  | classType type handle => s!"zend_type {type} = {newClassType handle};"
  | makeList list count => s!"zend_type_list *{list} = malloc(ZEND_TYPE_LIST_SIZE({count}));"
  | setCount list count => s!"{list}->num_types = {count};"
  | setSlot list index handle => s!"{list}->types[{index}] = {newClassType handle};"
  | unionType type list mask =>
    s!"zend_type {type} = ZEND_TYPE_INIT_UNION({list}, {mask.expression});"
  | declareProperty name value flags type =>
    call declareMacro ["class_entry", name, "&" ++ value, flags.expression, "NULL", type] ++ ";"
  | releaseString handle => call "zend_string_release" [handle] ++ ";"
  | returnEntry => "return class_entry;"

def line : Statement → Text.Line
  | blank => .blank
  | statement => ⟨1, statement.text⟩

def declares : Statement → List String
  | declareEntry => ["ce", "class_entry"]
  | declareValue name | makeString name _ | holdString name _ | untyped name | maskType name _
  | classType name _ | makeList name _ | unionType name _ _ => [name]
  | _ => []

def uses : Statement → List QualifiedName
  | register parent? => parent?.toList
  | implement interfaces => interfaces
  | _ => []

def events : Statement → List Ownership.Event
  | makeString handle _ | makeList handle _ => [.allocate handle]
  | giveString value handle => [.transfer handle value]
  | holdString handle _ => [.acquire handle]
  | classType _ handle | setSlot _ _ handle => [.consume handle classMacro]
  | unionType type list _ => [.transfer list type]
  | declareProperty name _ _ _ => [.consume name declareMacro]
  | releaseString handle => [.release handle]
  | _ => []

end Statement

end ExtensionHeader.Header
