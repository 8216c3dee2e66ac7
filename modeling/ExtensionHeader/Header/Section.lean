import ExtensionHeader.Reference
import ExtensionHeader.Header.EntryTable
import ExtensionHeader.Header.Routine

/-! A header is a list of sections, written one after the other with an empty line between two of
them: argument information, forward declarations, entry tables and registration routines. -/
namespace ExtensionHeader.Header

structure Options where
  /-- Whether declarations with the same signature share one block of argument information. -/
  sharesArgInfo : Bool := true
  /-- Whether the header starts with a comment that it is generated. -/
  hasBanner : Bool := true
deriving DecidableEq, Repr, Inhabited

def banner : String :=
  "/* This is a generated file, edit the extension declarations instead. */"

inductive Section where
  | banner
  | argInfo (item : ArgInfo)
  | forward (handlers : List Handler)
  | table (entries : EntryTable)
  | routine (code : Routine)
deriving DecidableEq, Repr, Inhabited

namespace Section

def lines : Section → List Text.Line
  | banner => [⟨0, Header.banner⟩]
  | argInfo item => item.lines
  | forward handlers => handlers.map (·.line)
  | table entries => entries.lines
  | routine code => code.lines

def render (s : Section) : String := Text.Line.renderAll s.lines

end Section

def routines (interner : Interner) : List Class → Except Defect (List Routine)
  | [] => .ok []
  | c :: rest => do
    let first ← Routine.ofClass interner c
    let others ← routines interner rest
    return first :: others

def tables (options : Options) (e : Extension) : List Section :=
  (if options.hasBanner then [.banner] else []) ++
    (argInfos options.sharesArgInfo e).map .argInfo ++
    (match handlers e with
      | [] => []
      | handlers => [.forward handlers]) ++
    (functionTables e).map .table ++
    e.classes.map fun c => .table (EntryTable.ofClass c)

def sections (options : Options) (e : Extension) : Except Defect (List Section) :=
  (routines e.interner e.classes).map fun routines => tables options e ++ routines.map .routine

def render (sections : List Section) : String :=
  "\n".intercalate (sections.map (·.render))

/-- The text of the header, without any validation of the declarations. -/
def emit (options : Options) (e : Extension) : Except Defect String :=
  (sections options e).map render

end ExtensionHeader.Header
