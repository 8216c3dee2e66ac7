import ExtensionHeader.AccessFlags
import ExtensionHeader.Header.ArgInfo

/-! Entry tables, which list functions or the methods of a class for the engine, and the forward
declarations of the handlers that they refer to. -/
namespace ExtensionHeader.Header

inductive Handler where
  | function (name : String)
  | method (cls name : String)
deriving DecidableEq, Repr, Inhabited

def Handler.line : Handler → Text.Line
  | function name => ⟨0, call "ZEND_FUNCTION" [name] ++ ";"⟩
  | method cls name => ⟨0, call "ZEND_METHOD" [cls, name] ++ ";"⟩

inductive Entry where
  /-- A global function, whose handler has its name. -/
  | function (name argInfo : String)
  | namespaced (path : String) (name handler argInfo : String)
  | method (cls name argInfo : String) (flags : AccessFlags)
  /-- An abstract method has no handler. -/
  | abstractMethod (cls name argInfo : String) (flags : AccessFlags)
deriving DecidableEq, Repr, Inhabited

namespace Entry

def ofFunction (f : Function) : Entry :=
  if f.name.isGlobal then function f.name.name (Identifier.functionArgInfo f.name)
  else namespaced f.name.namespaceText f.name.name (Identifier.ofName f.name)
    (Identifier.functionArgInfo f.name)

def ofMethod (c : Class) (m : Method) : Entry :=
  let argInfo := Identifier.methodArgInfo c.name m.name
  if m.isAbstract then abstractMethod (Identifier.ofName c.name) m.name argInfo (.ofMethod m)
  else method (Identifier.ofName c.name) m.name argInfo (.ofMethod m)

def argInfo : Entry → String
  | function _ argInfo | namespaced _ _ _ argInfo => argInfo
  | method _ _ argInfo _ | abstractMethod _ _ argInfo _ => argInfo

def text : Entry → String
  | function name argInfo => call "ZEND_FE" [name, argInfo]
  | namespaced path name handler argInfo =>
    call "ZEND_NS_FALIAS" [Text.CLiteral.quote path, name, handler, argInfo]
  | method cls name argInfo flags => call "ZEND_ME" [cls, name, argInfo, flags.expression]
  | abstractMethod cls name argInfo flags =>
    call "ZEND_ABSTRACT_ME_WITH_FLAGS" [cls, name, argInfo, flags.expression]

end Entry

structure EntryTable where
  name : String
  entries : List Entry
deriving DecidableEq, Repr, Inhabited

namespace EntryTable

def lines (t : EntryTable) : List Text.Line :=
  ⟨0, s!"static const zend_function_entry {t.name}[] = \x7b"⟩ ::
    t.entries.map (fun entry => ⟨1, entry.text⟩) ++ [⟨1, "ZEND_FE_END"⟩, ⟨0, "\x7d;"⟩]

def ofNamespace (e : Extension) (path : List String) : EntryTable :=
  ⟨Identifier.functionTable path e.path, (e.functionsIn path).map Entry.ofFunction⟩

def ofClass (c : Class) : EntryTable :=
  ⟨Identifier.methodTable c.name, c.methods.map (Entry.ofMethod c)⟩

end EntryTable

/-- The table of the extension's own namespace comes first, even without functions, then one table
for each other namespace in the order of their first functions. -/
def functionTables (e : Extension) : List EntryTable :=
  (e.path :: e.functionNamespaces.filter (· ≠ e.path)).map (EntryTable.ofNamespace e)

def handlers (e : Extension) : List Handler :=
  e.functions.map (fun f => .function (Identifier.ofName f.name)) ++
    e.classes.flatMap fun c => (c.methods.filter fun m => !m.isAbstract).map fun m =>
      .method (Identifier.ofName c.name) m.name

end ExtensionHeader.Header
