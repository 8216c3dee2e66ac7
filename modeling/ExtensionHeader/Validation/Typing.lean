import ExtensionHeader.Declaration
import ExtensionHeader.Diagnostic
import ExtensionHeader.Identifier

/-! Which types may stand where, and which defaults they admit. -/
namespace ExtensionHeader.Validation

inductive Position where
  | result | parameter | property
deriving DecidableEq, Repr, Inhabited

def callableProperty (location : Location) : Diagnostic :=
  ⟨.invalidTypePosition, location, "callable is not allowed as a property type"⟩

/-- A class member of a union: no class may occur twice, ASCII case aside, and no two classes may
have the same identifier. Only classes that are no repetitions themselves count as occupying an
identifier. -/
def ofUnionClass (location : Location) (text : String) (earlier : List QualifiedName)
    (cls : QualifiedName) : List Diagnostic :=
  if earlier.any (·.folded = cls.folded) then
    [⟨.duplicateUnionMember, location, s!"class {cls.display} appears more than once in {text}"⟩]
  else
    match (Sequence.firstBy (·.folded) earlier).find?
        (Identifier.ofName · = Identifier.ofName cls) with
    | none => []
    | some first => [⟨.manglingCollision, location,
        s!"classes {first.display} and {cls.display} in {text} mangle to the same identifier"⟩]

def ofUnion (position : Position) (location : Location) (u : UnionType) : List Diagnostic :=
  if u.isEmpty then [⟨.emptyUnion, location, "union type has no members"⟩]
  else
    Sequence.flatMapEarlier (ofUnionClass location u.display) u.classes ++
    Diagnostic.when (u.mask.contains .void)
      ⟨.invalidUnionMember, location, "void cannot be part of a union type"⟩ ++
    Diagnostic.when (u.mask.contains .any && !u.classes.isEmpty)
      ⟨.invalidUnionMember, location, "mixed cannot be part of a union type"⟩ ++
    Diagnostic.when (position = .property && u.mask.contains .callable) (callableProperty location)

def ofType (position : Position) (location : Location) : DeclaredType → List Diagnostic
  | .scalar kind =>
    Diagnostic.when (kind = .void && position ≠ .result)
      ⟨.invalidTypePosition, location, "void is only allowed as a return type"⟩ ++
    Diagnostic.when (kind = .callable && position = .property) (callableProperty location)
  | .cls _ => []
  | .union u => ofUnion position location u

def ofOptionalType (position : Position) (location : Location) (type? : Option DeclaredType) :
    List Diagnostic :=
  (type?.map (ofType position location)).getD []

def ofDefault (location : Location) : Option DeclaredType → Option DefaultValue → List Diagnostic
  | some t, some value =>
    Diagnostic.when (!t.permits value) ⟨.defaultTypeMismatch, location,
      s!"default {value.literal} is not a value of type {t.display}"⟩
  | _, _ => []

end ExtensionHeader.Validation
