import ExtensionHeader.Typing.Mask

/-! The scalar types of declarations. -/
namespace ExtensionHeader

inductive Scalar where
  | string | int | float | bool | array | object | callable | mixed | void | null
deriving DecidableEq, Repr, Inhabited

namespace Scalar

def all : List Scalar :=
  [string, int, float, bool, array, object, callable, mixed, void, null]

def name : Scalar → String
  | string => "string"
  | int => "int"
  | float => "float"
  | bool => "bool"
  | array => "array"
  | object => "object"
  | callable => "callable"
  | mixed => "mixed"
  | void => "void"
  | null => "null"

def ofName? (s : String) : Option Scalar := all.find? (·.name = s.toLower)

def code : Scalar → TypeCode
  | string => .string
  | int => .long
  | float => .double
  | bool => .bool
  | array => .array
  | object => .object
  | callable => .callable
  | mixed => .mixed
  | void => .void
  | null => .null

/-- The values of the type; `bool` and `mixed` have a code of their own but no bit. -/
def mask : Scalar → TypeMask
  | bool => .bool
  | mixed => .any
  | kind => .ofCode kind.code

end Scalar

/-- The scalar types whose values a mask holds; a mask that holds everything is `mixed`. -/
def TypeMask.scalars (m : TypeMask) : List Scalar :=
  if m.contains .any then [.mixed]
  else Scalar.all.filter fun kind => kind ≠ .mixed && m.contains kind.mask

end ExtensionHeader
