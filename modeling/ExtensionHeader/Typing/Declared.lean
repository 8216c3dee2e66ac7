import ExtensionHeader.DefaultValue

/-! Declared types: a scalar type, a class, or a union. Only unions carry nullability, so a nullable
type is a union of one member. -/
namespace ExtensionHeader

/-- A union as it is built up. The null type is kept as the flag, and `mixed` also as bits of the
scalar part. -/
structure UnionType where
  /-- Class members in the order in which they were added. -/
  classes : List QualifiedName := []
  scalars : TypeMask := .empty
  isNullable : Bool := false
deriving DecidableEq, Repr, Inhabited

inductive UnionType.Step where
  | scalar (kind : Scalar)
  | cls (name : QualifiedName)
  | nullable
deriving DecidableEq, Repr, Inhabited

namespace UnionType

def empty : UnionType := {}

def withClass (u : UnionType) (name : QualifiedName) : UnionType :=
  { u with classes := u.classes ++ [name] }

def withScalar (u : UnionType) : Scalar → UnionType
  | .null => { u with isNullable := true }
  | .mixed => { u with scalars := u.scalars ∪ .any, isNullable := true }
  | kind => { u with scalars := u.scalars ∪ kind.mask }

def nullable (u : UnionType) : UnionType := { u with isNullable := true }

def add (u : UnionType) : Step → UnionType
  | .scalar kind => u.withScalar kind
  | .cls name => u.withClass name
  | .nullable => u.nullable

def ofSteps (steps : List Step) : UnionType := steps.foldl add empty

def scalarMask (u : UnionType) : TypeMask := u.scalars \ .null

def mask (u : UnionType) : TypeMask := if u.isNullable then u.scalars ∪ .null else u.scalars

def isEmpty (u : UnionType) : Bool := u.classes.isEmpty && u.scalars.isEmpty && !u.isNullable

def display (u : UnionType) : String :=
  let scalars :=
    if u.scalars.contains .any then ["mixed"]
    else u.scalarMask.scalars.map (·.name) ++ if u.isNullable then ["null"] else []
  "|".intercalate (u.classes.map (·.display) ++ scalars)

end UnionType

inductive DeclaredType where
  | scalar (kind : Scalar)
  | cls (name : QualifiedName)
  | union (members : UnionType)
deriving DecidableEq, Repr, Inhabited

namespace DeclaredType

def nullable : DeclaredType → DeclaredType
  | scalar kind => union (UnionType.empty.withScalar kind).nullable
  | cls name => union (UnionType.empty.withClass name).nullable
  | union members => union members.nullable

def isNullable : DeclaredType → Bool
  | scalar kind => kind = .null || kind = .mixed
  | cls _ => false
  | union members => members.isNullable

def isMixed (t : DeclaredType) : Bool := t = scalar .mixed

def isVoid (t : DeclaredType) : Bool := t = scalar .void

def classes : DeclaredType → List QualifiedName
  | scalar _ => []
  | cls name => [name]
  | union members => members.classes

def mask : DeclaredType → TypeMask
  | scalar kind => kind.mask
  | cls _ => .empty
  | union members => members.mask

def display : DeclaredType → String
  | scalar kind => kind.name
  | cls name => name.display
  | union members => members.display

/-- Whether a value may be the default of something of this type. A class constant may always be,
as its value is not known here. -/
def permits (t : DeclaredType) (value : DefaultValue) : Bool :=
  match value.kind? with
  | none => true
  | some kind =>
    match t with
    | scalar .mixed => true
    | scalar own => own = kind
    | cls _ => false
    | union members =>
      if kind = .null then members.isNullable else members.scalarMask.contains kind.mask

end DeclaredType

end ExtensionHeader
