/-! Names of functions and classes: a path of namespace segments and a simple name, separated by
backslashes where they are written as one text. -/
namespace ExtensionHeader

structure QualifiedName where
  /-- Namespace segments, outermost first; none in the global namespace. -/
  path : List String := []
  name : String
deriving DecidableEq, Repr, Inhabited

namespace QualifiedName

def separator : Char := '\\'

def segments (s : String) : List String :=
  ((s.toList.splitOn separator).filter (· ≠ [])).map String.ofList

def joined (path : List String) : String := (String.singleton separator).intercalate path

/-- The last segment of `s` is the simple name; a text without segments names the empty global
name, and a leading separator means nothing. -/
def parse (s : String) : QualifiedName :=
  let parts := segments s
  ⟨parts.dropLast, parts.getLastD ""⟩

def isGlobal (q : QualifiedName) : Bool := q.path.isEmpty

def namespaceText (q : QualifiedName) : String := joined q.path

def display (q : QualifiedName) : String := joined (q.path ++ [q.name])

def folded (q : QualifiedName) : String := q.display.toLower

def child (q : QualifiedName) (name : String) : QualifiedName := ⟨q.path ++ [q.name], name⟩

/-- Simple names come first, then the segments; texts are ordered by code point. -/
instance : Ord QualifiedName where
  compare a b := (compare a.name b.name).then (compare a.path b.path)

end QualifiedName

end ExtensionHeader
