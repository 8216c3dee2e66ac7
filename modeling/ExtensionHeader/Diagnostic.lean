import ExtensionHeader.QualifiedName

/-! Violations of the rules for declarations, with the place of each in the extension. -/
namespace ExtensionHeader

inductive Location where
  | extension
  | function (name : QualifiedName)
  | cls (name : QualifiedName)
  | method (owner : QualifiedName) (name : String)
  | property (owner : QualifiedName) (name : String)
  | parameter (owner : Location) (name : String)
deriving DecidableEq, Repr, Inhabited

def Location.display : Location → String
  | extension => "extension"
  | function name => "function " ++ name.display
  | cls name => "class " ++ name.display
  | method owner name => "method " ++ owner.display ++ "::" ++ name
  | property owner name => "property " ++ owner.display ++ "::$" ++ name
  | parameter owner name => "parameter $" ++ name ++ " of " ++ owner.display

inductive Rule where
  | duplicateFunction | duplicateMethod | duplicateClass | duplicateProperty | duplicateParameter
  | parameterOrder | variadicNotLast | variadicDefault
  | defaultTypeMismatch | unsupportedDefault
  | emptyUnion | duplicateUnionMember | invalidUnionMember | invalidTypePosition
  | unresolvedReference | invalidName | manglingCollision | inheritanceCycle | invalidFlags
deriving DecidableEq, Repr, Inhabited

def Rule.display : Rule → String
  | duplicateFunction => "duplicate function"
  | duplicateMethod => "duplicate method"
  | duplicateClass => "duplicate class"
  | duplicateProperty => "duplicate property"
  | duplicateParameter => "duplicate parameter"
  | parameterOrder => "parameter order"
  | variadicNotLast => "variadic not last"
  | variadicDefault => "variadic default"
  | defaultTypeMismatch => "default/type mismatch"
  | unsupportedDefault => "unsupported default"
  | emptyUnion => "empty union"
  | duplicateUnionMember => "duplicate union member"
  | invalidUnionMember => "invalid union member"
  | invalidTypePosition => "invalid type position"
  | unresolvedReference => "unresolved reference"
  | invalidName => "invalid name"
  | manglingCollision => "mangling collision"
  | inheritanceCycle => "inheritance cycle"
  | invalidFlags => "invalid flags"

structure Diagnostic where
  rule : Rule
  location : Location
  message : String
deriving DecidableEq, Repr, Inhabited

namespace Diagnostic

def when (condition : Bool) (d : Diagnostic) : List Diagnostic := if condition then [d] else []

@[simp] theorem mem_when {condition : Bool} {d x : Diagnostic} :
    x ∈ when condition d ↔ condition = true ∧ x = d := by
  cases condition <;> simp [when]

def display (d : Diagnostic) : String :=
  d.rule.display ++ " in " ++ d.location.display ++ ": " ++ d.message

def displayAll (ds : List Diagnostic) : String := "\n".intercalate (ds.map display)

def summary (ds : List Diagnostic) : String :=
  s!"invalid extension declarations ({ds.length} errors):\n" ++ displayAll ds

end Diagnostic

end ExtensionHeader
