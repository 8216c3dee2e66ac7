import ExtensionHeader.QualifiedName
import ExtensionHeader.Decimal.Notation
import ExtensionHeader.Text
import ExtensionHeader.Typing.Scalar

/-! Default values of parameters and properties. -/
namespace ExtensionHeader

inductive DefaultValue where
  | null
  | bool (value : Bool)
  | int (value : Int64)
  | float (value : Binary64)
  | string (value : String)
  | emptyArray
  /-- A constant of a class, known only to the runtime. -/
  | constant (cls : QualifiedName) (name : String)
deriving DecidableEq, Repr, Inhabited

namespace DefaultValue

def kind? : DefaultValue → Option Scalar
  | null => some .null
  | bool _ => some .bool
  | int _ => some .int
  | float _ => some .float
  | string _ => some .string
  | emptyArray => some .array
  | constant .. => none

def class? : DefaultValue → Option QualifiedName
  | constant cls _ => some cls
  | _ => none

def literal : DefaultValue → String
  | null => "null"
  | bool value => if value then "true" else "false"
  | int value => toString value.toInt
  | float value => value.text
  | string value => Text.PhpLiteral.quote value
  | emptyArray => "[]"
  | constant cls name => cls.display ++ "::" ++ name

/-- Values that compare equal have one canonical form. -/
def canonical : DefaultValue → DefaultValue
  | float value => float value.canonical
  | value => value

end DefaultValue

end ExtensionHeader
