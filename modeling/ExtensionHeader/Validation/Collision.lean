import ExtensionHeader.Diagnostic
import ExtensionHeader.Declaration
import ExtensionHeader.Identifier

/-! Identifiers that two declarations would both define. Identifiers fall into families that are
told apart by their place in the header; within a family every declaration claims its identifier,
and the first claimant keeps it. -/
namespace ExtensionHeader.Validation

inductive Family where
  /-- Function tables. -/
  | table
  /-- Functions and classes. -/
  | symbol
  /-- Argument information of functions and methods. -/
  | argInfo
  /-- The class handles that the registration routine of one class receives. -/
  | handle (position : Nat)
deriving DecidableEq, Repr, Inhabited

/-- A claim on an identifier. Claims with one key come from declarations that are reported as
duplicates of each other, or are none, and do not collide. -/
structure Claim where
  family : Family
  identifier : String
  key : String
  location : Location
deriving DecidableEq, Repr, Inhabited

namespace Claim

def ofNamespace (own path : List String) : Claim :=
  ⟨.table, Identifier.functionTable path own, "namespace:" ++ QualifiedName.joined path,
    .extension⟩

def ofFunction (f : Function) : List Claim :=
  let key := "function:" ++ f.name.folded
  [⟨.symbol, Identifier.ofName f.name, key, .function f.name⟩,
    ⟨.argInfo, Identifier.functionArgInfo f.name, key, .function f.name⟩]

def ofSupertype (c : Class) (position : Nat) (q : QualifiedName) : Claim :=
  ⟨.handle position, Identifier.classHandle q, "supertype:" ++ q.folded, .cls c.name⟩

def ofMethod (c : Class) (m : Method) : Claim :=
  ⟨.argInfo, Identifier.methodArgInfo c.name m.name,
    "method:" ++ c.name.folded ++ "::" ++ m.name.toLower, .method c.name m.name⟩

def ofClass (c : Class) (position : Nat) : List Claim :=
  ⟨.symbol, Identifier.ofName c.name, "class:" ++ c.name.folded, .cls c.name⟩ ::
    c.supertypes.map (ofSupertype c position) ++ c.methods.map (ofMethod c)

def ofExtension (e : Extension) : List Claim :=
  e.functionNamespaces.map (ofNamespace e.path) ++ e.functions.flatMap ofFunction ++
    e.classes.zipIdx.flatMap fun (c, position) => ofClass c position

def contends (a b : Claim) : Bool := a.family = b.family && a.identifier = b.identifier

end Claim

def ofClaim (earlier : List Claim) (claim : Claim) : List Diagnostic :=
  match earlier.find? claim.contends with
  | none => []
  | some first => Diagnostic.when (first.key ≠ claim.key) ⟨.manglingCollision, claim.location,
      s!"identifier {claim.identifier} is already used by {first.location.display}"⟩

def collisions (e : Extension) : List Diagnostic :=
  Sequence.flatMapEarlier ofClaim (Claim.ofExtension e)

end ExtensionHeader.Validation
