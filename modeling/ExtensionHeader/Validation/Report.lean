import ExtensionHeader.Hierarchy
import ExtensionHeader.Reference
import ExtensionHeader.Validation.Collision
import ExtensionHeader.Validation.Members

/-! The validation of a whole extension. All checks run to the end, so one report names everything
that is wrong; the rules for single declarations come before those for the extension as a whole. No
class inherits from itself, and none extends a final class of the extension. -/
namespace ExtensionHeader

namespace Validation

inductive Mode where
  /-- A class defined elsewhere, which is worth a warning. -/
  | lenient
  | closedWorld
deriving DecidableEq, Repr, Inhabited

structure Report where
  errors : List Diagnostic := []
  warnings : List Diagnostic := []
deriving DecidableEq, Repr, Inhabited

def Report.result (r : Report) : Except (List Diagnostic) (List Diagnostic) :=
  if r.errors.isEmpty then .ok r.warnings else .error r.errors

def ofReference (r : Reference) : Diagnostic :=
  ⟨.unresolvedReference, r.location,
    s!"class {r.name.display} is not declared by this extension"⟩

def members (e : Extension) : List Diagnostic :=
  ofPath .extension e.path ++ Sequence.flatMapEarlier ofFunction e.functions ++
    Sequence.flatMapEarlier ofClass e.classes

def ofCycle (members : List QualifiedName) : List Diagnostic :=
  match members with
  | [] => []
  | first :: _ => [⟨.inheritanceCycle, .cls first,
      "inheritance cycle through " ++ " -> ".intercalate (members.map (·.display))⟩]

def ofParent (h : Hierarchy) (c : Class) : List Diagnostic :=
  match h.parent? c.name with
  | none => []
  | some parent => Diagnostic.when (parent.isLocal && parent.isFinal)
      ⟨.invalidFlags, .cls c.name, s!"cannot extend final class {parent.name.display}"⟩

def inheritance (e : Extension) : List Diagnostic :=
  e.hierarchy.cycles.flatMap ofCycle ++ e.classes.flatMap (ofParent e.hierarchy)

def undeclared (e : Extension) : List Diagnostic := e.unresolved.map ofReference

end Validation

/-- All checks run, whatever the others find. Names that are not declared are errors in a closed
world and warnings otherwise. -/
def Extension.validate (e : Extension) (mode : Validation.Mode) : Validation.Report :=
  let first := Validation.members e ++ Validation.inheritance e
  let undeclared := Validation.undeclared e
  let last := Validation.collisions e
  match mode with
  | .lenient => { errors := first ++ last, warnings := undeclared }
  | .closedWorld => { errors := first ++ undeclared ++ last }

end ExtensionHeader
