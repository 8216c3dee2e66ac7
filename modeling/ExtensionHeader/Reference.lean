import ExtensionHeader.Declaration
import ExtensionHeader.Diagnostic
import ExtensionHeader.Interner

/-! Uses of class names. A class name is used by types, by class constants that are defaults, and by
the inheritance clauses of classes; every use has its place. -/
namespace ExtensionHeader

structure Reference where
  name : QualifiedName
  location : Location
deriving DecidableEq, Repr, Inhabited

namespace Reference

/-- The classes of a type and of a default, in this order, all used at one place. -/
def ofValue (location : Location) (type? : Option DeclaredType) (default? : Option DefaultValue) :
    List Reference :=
  ((type?.map (·.classes)).getD [] ++ (default?.bind (·.class?)).toList).map (⟨·, location⟩)

def ofSignature (location : Location) (s : Signature) : List Reference :=
  (s.parameters.flatMap fun p => ofValue (.parameter location p.name) p.type? p.default?) ++
    ofValue location s.returns? none

def ofFunction (f : Function) : List Reference := ofSignature (.function f.name) f.signature

def ofClass (c : Class) : List Reference :=
  c.supertypes.map (⟨·, .cls c.name⟩) ++
    (c.methods.flatMap fun m => ofSignature (.method c.name m.name) m.signature) ++
    c.properties.flatMap fun p => ofValue (.property c.name p.name) p.type? p.default?

end Reference

namespace Extension

def references (e : Extension) : List Reference :=
  e.functions.flatMap Reference.ofFunction ++ e.classes.flatMap Reference.ofClass

def unresolved (e : Extension) : List Reference :=
  let declared := e.classes.map (·.name.folded)
  e.references.filter fun r => r.name.folded ∉ declared

/-- The texts that an extension interns, in this order. -/
def internedTexts (e : Extension) : List String :=
  e.namespaceText :: e.classes.map (·.name.display) ++
    e.functionNamespaces.map QualifiedName.joined ++ e.references.map (·.name.display)

def interner (e : Extension) : Interner := .ofList e.internedTexts

def symbol? (e : Extension) (r : Reference) : Option Symbol := e.interner.get? r.name.display

end Extension

end ExtensionHeader
