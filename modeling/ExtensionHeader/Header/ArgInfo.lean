import ExtensionHeader.Declaration
import ExtensionHeader.Identifier
import ExtensionHeader.Text

/-! Argument information: for each function and method a block of macro calls that describes its
signature, or an alias of the block of an earlier declaration. -/
namespace ExtensionHeader.Header

def call (name : String) (arguments : List String) : String :=
  name ++ "(" ++ ", ".intercalate arguments ++ ")"

inductive ArgType where
  | untyped
  | code (kind : Scalar) (isNullable : Bool)
  | object (cls : QualifiedName) (isNullable : Bool)
  | mask (mask : TypeMask)
  /-- Classes, and scalar types if there are any. -/
  | objectMask (classes : List QualifiedName) (mask : TypeMask)
deriving DecidableEq, Repr, Inhabited

namespace ArgType

/-- Without classes a union that holds everything is `mixed`, and one scalar type is passed by its
code. A single class without scalar types is passed by its name. -/
def ofUnion (u : UnionType) : ArgType :=
  match u.classes with
  | [] =>
    if u.mask.contains .any then code .mixed false
    else match u.scalarMask.scalars with
      | [kind] => if kind.mask = u.scalarMask then code kind u.isNullable else mask u.mask
      | _ => mask u.mask
  | [cls] =>
    if u.scalarMask.isEmpty then object cls u.isNullable else objectMask [cls] u.mask
  | classes => objectMask classes u.mask

def of : Option DeclaredType → ArgType
  | none => untyped
  | some (.scalar kind) => code kind false
  | some (.cls name) => object name false
  | some (.union u) => ofUnion u

/-- The macros turn a class name into a string, so its separators are doubled. -/
def className (q : QualifiedName) : String :=
  String.ofList (q.display.toList.flatMap fun c =>
    if c = QualifiedName.separator then [c, c] else [c])

def family : ArgType → String
  | untyped => "INFO"
  | code .. => "TYPE_INFO"
  | object .. => "OBJ_INFO"
  | mask _ => "TYPE_MASK"
  | objectMask .. => "OBJ_TYPE_MASK"

def arguments : ArgType → List String
  | untyped => []
  | code kind isNullable => [kind.code.display, Text.bit isNullable]
  | object cls isNullable => [className cls, Text.bit isNullable]
  | mask m => [m.expression]
  | objectMask classes m => ["|".intercalate (classes.map className), m.expression]

def takesDefault : ArgType → Bool
  | mask _ | objectMask .. => true
  | _ => false

end ArgType

def opening (name : String) (s : Signature) : String :=
  let reference := Text.bit s.returnsReference
  let required := toString s.required
  match ArgType.of s.returns? with
  | .untyped => call "ZEND_BEGIN_ARG_INFO_EX" [name, "0", reference, required]
  | t => call ("ZEND_BEGIN_ARG_WITH_RETURN_" ++ t.family ++ "_EX")
      ([name, reference, required] ++ t.arguments)

def argument (p : Parameter) : String :=
  let t := ArgType.of p.type?
  let name := (if p.isVariadic then "ZEND_ARG_VARIADIC_" else "ZEND_ARG_") ++ t.family
  let arguments := [Text.bit p.byReference, p.name] ++ t.arguments
  let default? := p.default?.map fun value => Text.CLiteral.quote value.literal
  if t.takesDefault then call name (arguments ++ [default?.getD "NULL"])
  else match default? with
    | none => call name arguments
    | some value => call (name ++ "_WITH_DEFAULT_VALUE") (arguments ++ [value])

def block (name : String) (s : Signature) : List Text.Line :=
  ⟨0, opening name s⟩ :: s.parameters.map (fun p => ⟨1, argument p⟩) ++
    [⟨0, "ZEND_END_ARG_INFO()"⟩]

inductive ArgInfo where
  | block (name : String) (signature : Signature)
  | synonym (name owner : String)
deriving DecidableEq, Repr, Inhabited

namespace ArgInfo

def name : ArgInfo → String
  | block name _ | synonym name _ => name

def lines : ArgInfo → List Text.Line
  | block name s => Header.block name s
  | synonym name owner => [⟨0, "#define " ++ name ++ " " ++ owner⟩]

/-- The declarations that have a block of their own, in buckets by the digest of the signature. In a
bucket they stand in the order in which the blocks were written. -/
structure Owners where
  buckets : List (UInt64 × List (String × Signature)) := []
deriving DecidableEq, Repr, Inhabited

namespace Owners

def bucket (o : Owners) (digest : UInt64) : List (String × Signature) :=
  (o.buckets.lookup digest).getD []

/-- The declaration whose block `s` can use. Only one bucket is searched, so signatures that are the
same but have two digests do not share; this happens if a float default is zero with two signs. -/
def find? (o : Owners) (s : Signature) : Option (String × Signature) :=
  (o.bucket s.digest).find? (·.2.Same s)

def add (o : Owners) (declaration : String × Signature) : Owners :=
  let digest := declaration.2.digest
  ⟨(digest, o.bucket digest ++ [declaration]) :: o.buckets.filter (·.1 ≠ digest)⟩

end Owners

def share (owners : Owners) : List (String × Signature) → List ArgInfo
  | [] => []
  | declaration :: rest =>
    match owners.find? declaration.2 with
    | some owner => synonym declaration.1 owner.1 :: share owners rest
    | none => block declaration.1 declaration.2 :: share (owners.add declaration) rest

end ArgInfo

def declarations (e : Extension) : List (String × Signature) :=
  e.functions.map (fun f => (Identifier.functionArgInfo f.name, f.signature)) ++
    e.classes.flatMap fun c =>
      c.methods.map fun m => (Identifier.methodArgInfo c.name m.name, m.signature)

def argInfos (share : Bool) (e : Extension) : List ArgInfo :=
  if share then ArgInfo.share {} (declarations e)
  else (declarations e).map fun declaration => .block declaration.1 declaration.2

end ExtensionHeader.Header
