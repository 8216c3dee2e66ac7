import ExtensionHeader.Declaration

/-! Access flags of the engine, as the bits of a 16-bit word. Bits without a name are kept. -/
namespace ExtensionHeader

structure AccessFlags where
  bits : BitVec 16
deriving DecidableEq, Repr

namespace AccessFlags

def empty : AccessFlags := ⟨0⟩

instance : Inhabited AccessFlags := ⟨empty⟩

def union (a b : AccessFlags) : AccessFlags := ⟨a.bits ||| b.bits⟩

instance : Union AccessFlags := ⟨union⟩

def contains (a b : AccessFlags) : Bool := a.bits &&& b.bits = b.bits

def isEmpty (a : AccessFlags) : Bool := a.bits = 0

def pub : AccessFlags := ⟨1⟩
def protect : AccessFlags := ⟨2⟩
def priv : AccessFlags := ⟨4⟩
def static : AccessFlags := ⟨8⟩
def final : AccessFlags := ⟨16⟩
def abstract : AccessFlags := ⟨32⟩
def explicitAbstractClass : AccessFlags := ⟨64⟩
def noDynamicProperties : AccessFlags := ⟨128⟩

def names : List (AccessFlags × String) :=
  [(pub, "ZEND_ACC_PUBLIC"), (protect, "ZEND_ACC_PROTECTED"), (priv, "ZEND_ACC_PRIVATE"),
    (static, "ZEND_ACC_STATIC"), (final, "ZEND_ACC_FINAL"), (abstract, "ZEND_ACC_ABSTRACT"),
    (explicitAbstractClass, "ZEND_ACC_EXPLICIT_ABSTRACT_CLASS"),
    (noDynamicProperties, "ZEND_ACC_NO_DYNAMIC_PROPERTIES")]

def expression (a : AccessFlags) : String :=
  match names.filter fun (flag, _) => a.contains flag with
  | [] => "0"
  | set => "|".intercalate (set.map (·.2))

def when (condition : Bool) (flags : AccessFlags) : AccessFlags :=
  if condition then flags else empty

def ofVisibility : Visibility → AccessFlags
  | .pub => pub
  | .protect => protect
  | .priv => priv

def ofMethod (m : Method) : AccessFlags :=
  ofVisibility m.visibility ∪ when m.isStatic static ∪ when m.isFinal final ∪
    when m.isAbstract abstract

def ofProperty (p : Property) : AccessFlags :=
  ofVisibility p.visibility ∪ when p.isStatic static

def ofClass (c : Class) : AccessFlags :=
  when c.isFinal final ∪ when c.isAbstract explicitAbstractClass ∪
    when c.refusesDynamic noDynamicProperties

end AccessFlags

end ExtensionHeader
