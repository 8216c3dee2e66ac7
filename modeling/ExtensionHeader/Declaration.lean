import ExtensionHeader.Signature
import ExtensionHeader.Sequence

/-! The declarations of an extension: functions, and classes with methods and properties. Nothing
here is checked; an extension may be declared wrongly and is then refused by validation. -/
namespace ExtensionHeader

inductive Visibility where
  | pub | protect | priv
deriving DecidableEq, Repr, Inhabited

def Visibility.display : Visibility → String
  | pub => "public"
  | protect => "protected"
  | priv => "private"

structure Function where
  name : QualifiedName
  signature : Signature := {}
deriving DecidableEq, Repr, Inhabited

structure Method where
  name : String
  visibility : Visibility := .pub
  isStatic : Bool := false
  isFinal : Bool := false
  isAbstract : Bool := false
  signature : Signature := {}
deriving DecidableEq, Repr, Inhabited

structure Property where
  name : String
  type? : Option DeclaredType := none
  default? : Option DefaultValue := none
  visibility : Visibility := .pub
  isStatic : Bool := false
deriving DecidableEq, Repr, Inhabited

structure Class where
  name : QualifiedName
  parent? : Option QualifiedName := none
  interfaces : List QualifiedName := []
  methods : List Method := []
  properties : List Property := []
  isFinal : Bool := false
  isAbstract : Bool := false
  /-- Whether objects refuse properties that are not declared. -/
  refusesDynamic : Bool := false
deriving DecidableEq, Repr, Inhabited

def Class.supertypes (c : Class) : List QualifiedName := c.parent?.toList ++ c.interfaces

structure Extension where
  /-- The namespace of the extension itself. -/
  path : List String := []
  functions : List Function := []
  classes : List Class := []
deriving DecidableEq, Repr, Inhabited

namespace Extension

def inNamespace (s : String) : Extension := { path := QualifiedName.segments s }

def qualify (e : Extension) (name : String) : QualifiedName := ⟨e.path, name⟩

def addFunction (e : Extension) (f : Function) : Extension :=
  { e with functions := e.functions ++ [f] }

def addClass (e : Extension) (c : Class) : Extension := { e with classes := e.classes ++ [c] }

def namespaceText (e : Extension) : String := QualifiedName.joined e.path

/-- The first class declared under the name, ASCII case aside. -/
def findClass? (e : Extension) (name : QualifiedName) : Option Class :=
  e.classes.find? (·.name.folded = name.folded)

def declaresClass (e : Extension) (name : QualifiedName) : Bool := (e.findClass? name).isSome

def functionNamespaces (e : Extension) : List (List String) :=
  (e.functions.map (·.name.path)).eraseDups

def functionsIn (e : Extension) (path : List String) : List Function :=
  e.functions.filter (·.name.path = path)

end Extension

end ExtensionHeader
