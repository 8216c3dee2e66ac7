import ExtensionHeader.QualifiedName

/-! C identifiers. A qualified name becomes one identifier by joining its segments with
underscores, so two names may share an identifier; validation reports those that do. -/
namespace ExtensionHeader.Identifier

def isStart (c : Char) : Bool := c.isAlpha || c == '_'

def isContinuation (c : Char) : Bool := c.isAlphanum || c == '_'

def isValid (s : String) : Bool :=
  match s.toList with
  | [] => false
  | c :: rest => isStart c && rest.all isContinuation

/-- Every segment is followed by an underscore, then comes the simple name. -/
def ofName (q : QualifiedName) : String := String.join (q.path.map (· ++ "_")) ++ q.name

def functionArgInfo (function : QualifiedName) : String := "arginfo_" ++ ofName function

def methodArgInfo (cls : QualifiedName) (method : String) : String :=
  "arginfo_class_" ++ ofName cls ++ "_" ++ method

def methodTable (cls : QualifiedName) : String := "class_" ++ ofName cls ++ "_methods"

def registration (cls : QualifiedName) : String := "register_class_" ++ ofName cls

def classHandle (cls : QualifiedName) : String := "class_entry_" ++ ofName cls

/-- The table of the functions in the namespace `path`; the namespace of the extension itself has
the table that the module entry refers to. -/
def functionTable (path own : List String) : String :=
  if path = own then "ext_functions"
  else if path = [] then "ext_global_functions"
  else "ext_" ++ "_".intercalate path ++ "_functions"

end ExtensionHeader.Identifier
