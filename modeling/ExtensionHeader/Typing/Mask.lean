/-! Type masks: sets of engine type codes as the bits of a 32-bit word. Bits without a name are kept
by every operation. -/
namespace ExtensionHeader

inductive TypeCode where
  | null | false | true | long | double | string | array | object | resource | callable | void
  | mixed | bool
deriving DecidableEq, Repr, Inhabited

namespace TypeCode

def all : List TypeCode :=
  [null, false, true, long, double, string, array, object, resource, callable, void, mixed, bool]

def value : TypeCode → Nat
  | null => 1
  | false => 2
  | true => 3
  | long => 4
  | double => 5
  | string => 6
  | array => 7
  | object => 8
  | resource => 9
  | callable => 12
  | void => 14
  | mixed => 16
  | bool => 18

def ofNat? (n : Nat) : Option TypeCode := all.find? (·.value = n)

def display : TypeCode → String
  | null => "IS_NULL"
  | false => "IS_FALSE"
  | true => "IS_TRUE"
  | long => "IS_LONG"
  | double => "IS_DOUBLE"
  | string => "IS_STRING"
  | array => "IS_ARRAY"
  | object => "IS_OBJECT"
  | resource => "IS_RESOURCE"
  | callable => "IS_CALLABLE"
  | void => "IS_VOID"
  | mixed => "IS_MIXED"
  | bool => "_IS_BOOL"

end TypeCode

structure TypeMask where
  bits : BitVec 32
deriving DecidableEq, Repr

namespace TypeMask

def empty : TypeMask := ⟨0⟩

instance : Inhabited TypeMask := ⟨empty⟩

def ofCode (code : TypeCode) : TypeMask := ⟨1 <<< code.value⟩

def union (a b : TypeMask) : TypeMask := ⟨a.bits ||| b.bits⟩

instance : Union TypeMask := ⟨union⟩

def difference (a b : TypeMask) : TypeMask := ⟨a.bits &&& ~~~b.bits⟩

instance : SDiff TypeMask := ⟨difference⟩

def contains (a b : TypeMask) : Bool := a.bits &&& b.bits = b.bits

def isEmpty (a : TypeMask) : Bool := a.bits = 0

def null : TypeMask := ofCode .null
def callable : TypeMask := ofCode .callable
def void : TypeMask := ofCode .void

def bool : TypeMask := ofCode .false ∪ ofCode .true

/-- What a value can be at run time: all codes up to that of resources. -/
def any : TypeMask :=
  null ∪ bool ∪ ofCode .long ∪ ofCode .double ∪ ofCode .string ∪ ofCode .array ∪ ofCode .object ∪
    ofCode .resource

/-- The named masks, in the order in which an expression lists them. A mask is named before its
parts are. -/
def names : List (TypeMask × String) :=
  [(any, "MAY_BE_ANY"), (callable, "MAY_BE_CALLABLE"), (ofCode .object, "MAY_BE_OBJECT"),
    (ofCode .array, "MAY_BE_ARRAY"), (ofCode .string, "MAY_BE_STRING"),
    (ofCode .long, "MAY_BE_LONG"), (ofCode .double, "MAY_BE_DOUBLE"), (bool, "MAY_BE_BOOL"),
    (ofCode .false, "MAY_BE_FALSE"), (ofCode .true, "MAY_BE_TRUE"), (null, "MAY_BE_NULL"),
    (void, "MAY_BE_VOID")]

def decompose : List (TypeMask × String) → TypeMask → List String
  | [], _ => []
  | (part, name) :: rest, m =>
    if m.contains part then name :: decompose rest (m \ part) else decompose rest m

/-- A C expression for the mask: names joined by bars, or `0`. Bits that no name covers are left
out. -/
def expression (m : TypeMask) : String :=
  if m.isEmpty then "0" else "|".intercalate (decompose names m)

end TypeMask

end ExtensionHeader
