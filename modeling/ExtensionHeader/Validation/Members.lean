import ExtensionHeader.Validation.Typing

/-! The rules for single declarations: signatures, functions, methods, properties and classes. In
each list of declarations an element is compared with the elements before it. Names have to be C
identifiers, as they become parts of identifiers in the header. -/
namespace ExtensionHeader.Validation

def ofPath (location : Location) (path : List String) : List Diagnostic :=
  path.flatMap fun segment => Diagnostic.when (!Identifier.isValid segment)
    ⟨.invalidName, location, s!"namespace segment '{segment}' is not a valid identifier"⟩

def ofSimpleName (location : Location) (name : String) : List Diagnostic :=
  Diagnostic.when (!Identifier.isValid name)
    ⟨.invalidName, location, s!"'{name}' is not a valid identifier"⟩

def ofQualifiedName (location : Location) (q : QualifiedName) : List Diagnostic :=
  ofPath location q.path ++ ofSimpleName location q.name

/-- Where optional parameters may stand. A variadic parameter comes last and has no default, and no
required parameter follows one with a default. -/
def ofOrder (location : Location) (earlier : List Parameter) (isLast : Bool) (p : Parameter) :
    List Diagnostic :=
  if p.isVariadic then
    Diagnostic.when (!isLast)
      ⟨.variadicNotLast, location, "a variadic parameter must be the last parameter"⟩ ++
    Diagnostic.when p.default?.isSome
      ⟨.variadicDefault, location, "a variadic parameter cannot have a default value"⟩
  else
    Diagnostic.when (p.default?.isNone && earlier.any fun q => q.default?.isSome && !q.isVariadic)
      ⟨.parameterOrder, location, "required parameter follows an optional parameter"⟩

def ofParameter (owner : Location) (count : Nat) (earlier : List Parameter) (p : Parameter) :
    List Diagnostic :=
  let location := Location.parameter owner p.name
  ofSimpleName location p.name ++
  Diagnostic.when (earlier.any (·.name = p.name))
    ⟨.duplicateParameter, location, s!"parameter ${p.name} is declared more than once"⟩ ++
  ofOrder location earlier (earlier.length + 1 = count) p ++
  ofOptionalType .parameter location p.type? ++
  ofDefault location p.type? p.default?

def ofSignature (location : Location) (s : Signature) : List Diagnostic :=
  Sequence.flatMapEarlier (ofParameter location s.parameters.length) s.parameters ++
  ofOptionalType .result location s.returns?

def ofFunction (earlier : List Function) (f : Function) : List Diagnostic :=
  let location := Location.function f.name
  ofQualifiedName location f.name ++
  Diagnostic.when (earlier.any (·.name.folded = f.name.folded))
    ⟨.duplicateFunction, location, s!"function '{f.name.display}' is declared more than once"⟩ ++
  ofSignature location f.signature

def ofMethod (c : Class) (earlier : List Method) (m : Method) : List Diagnostic :=
  let location := Location.method c.name m.name
  ofSimpleName location m.name ++
  Diagnostic.when (earlier.any (·.name.toLower = m.name.toLower))
    ⟨.duplicateMethod, location, s!"method '{m.name}' is declared more than once"⟩ ++
  Diagnostic.when (m.isAbstract && m.isFinal)
    ⟨.invalidFlags, location, "a method cannot be both abstract and final"⟩ ++
  Diagnostic.when (m.isAbstract && !c.isAbstract)
    ⟨.invalidFlags, location, s!"abstract method in non-abstract class {c.name.display}"⟩ ++
  ofSignature location m.signature

def ofPropertyDefault (location : Location) (p : Property) : List Diagnostic :=
  match p.default? with
  | some (.constant cls name) =>
    [⟨.unsupportedDefault, location,
      s!"class constant {(DefaultValue.constant cls name).literal} cannot be a property default"⟩]
  | default? => ofDefault location p.type? default?

def ofProperty (c : Class) (earlier : List Property) (p : Property) : List Diagnostic :=
  let location := Location.property c.name p.name
  ofSimpleName location p.name ++
  Diagnostic.when (earlier.any (·.name = p.name))
    ⟨.duplicateProperty, location, s!"property ${p.name} is declared more than once"⟩ ++
  ofOptionalType .property location p.type? ++
  ofPropertyDefault location p

def ofClass (earlier : List Class) (c : Class) : List Diagnostic :=
  let location := Location.cls c.name
  ofQualifiedName location c.name ++
  Diagnostic.when (earlier.any (·.name.folded = c.name.folded))
    ⟨.duplicateClass, location, s!"class '{c.name.display}' is declared more than once"⟩ ++
  Diagnostic.when (c.isAbstract && c.isFinal)
    ⟨.invalidFlags, location, "a class cannot be both abstract and final"⟩ ++
  Sequence.flatMapEarlier (ofMethod c) c.methods ++
  Sequence.flatMapEarlier (ofProperty c) c.properties

end ExtensionHeader.Validation
