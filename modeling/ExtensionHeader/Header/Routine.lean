import ExtensionHeader.Interner
import ExtensionHeader.Header.Statement

/-! Registration routines. For each class there is a C function that registers the class, sets its
flags, attaches its interfaces and declares its properties. -/
namespace ExtensionHeader.Header

/-- What a routine cannot be made for. Validation refuses declarations of this kind. -/
inductive Refusal where
  | constantDefault (property : String) (value : DefaultValue)
  | notInterned (cls : String)
  | emptyUnion (property : String)
deriving DecidableEq, Repr, Inhabited

inductive Defect where
  | unbalanced (routine : String) (imbalance : Ownership.Imbalance)
  | unvalidated (refusal : Refusal)
deriving DecidableEq, Repr, Inhabited

def Refusal.message : Refusal → String
  | constantDefault property value =>
    s!"property ${property} has class-constant default {value.literal}"
  | notInterned cls => s!"class {cls} was never interned"
  | emptyUnion property => s!"empty union type on {Variable.stem property}"

def Defect.message : Defect → String
  | unbalanced routine imbalance =>
    s!"unbalanced ownership in {routine}: {imbalance.message}"
  | unvalidated refusal => s!"unvalidated input reached the emitter: {refusal.message}"

/-- Stores the default value. Without a default a typed property is not initialised, and an untyped
one is null. -/
def storeDefault (p : Property) : Except Defect (List Statement) :=
  let value := Variable.value p.name
  let store initial := .ok [.setValue value initial]
  match p.default? with
  | none => store (if p.type?.isSome then .undefined else .null)
  | some .null => store .null
  | some (.bool b) => store (.bool b)
  | some (.int n) => store (.long n)
  | some (.float x) => store (.double x)
  | some .emptyArray => store .emptyArray
  | some (.string s) =>
    .ok [.makeString (Variable.text p.name) s, .giveString value (Variable.text p.name)]
  | some (.constant cls name) =>
    .error (.unvalidated (.constantDefault p.name (.constant cls name)))

def holdClasses (interner : Interner) (property : String) :
    List QualifiedName → Except Defect (List Statement)
  | [] => .ok []
  | q :: rest =>
    match (interner.get? q.display).bind interner.resolve? with
    | none => .error (.unvalidated (.notInterned q.display))
    | some text =>
      (holdClasses interner property rest).map (.holdString (Variable.cls property q) text :: ·)

def makeType (property : String) : DeclaredType → Except Defect (List Statement)
  | .scalar kind => .ok [.maskType (Variable.type property) kind.mask]
  | .cls q => .ok [.classType (Variable.type property) (Variable.cls property q)]
  | .union u =>
    if u.isEmpty then .error (.unvalidated (.emptyUnion property))
    else if u.classes.isEmpty then .ok [.maskType (Variable.type property) u.mask]
    else
      let list := Variable.list property
      let count := u.classes.length
      .ok ([.makeList list count, .setCount list count] ++
        u.classes.zipIdx.map (fun (q, index) =>
          .setSlot list index (Variable.cls property q)) ++
        [.unionType (Variable.type property) list u.mask])

def storeType (interner : Interner) (p : Property) : Except Defect (List Statement) :=
  match p.type? with
  | none => .ok [.untyped (Variable.type p.name)]
  | some t => do
    let hold ← holdClasses interner p.name t.classes
    let make ← makeType p.name t
    return hold ++ make

def declareProperty (interner : Interner) (p : Property) :
    Except Defect (List Statement) := do
  let value ← storeDefault p
  let type ← storeType interner p
  let classes := (p.type?.map (·.classes)).getD []
  return .declareValue (Variable.value p.name) :: value ++
    .holdString (Variable.name p.name) p.name :: type ++
    .declareProperty (Variable.name p.name) (Variable.value p.name) (.ofProperty p)
      (Variable.type p.name) ::
    .releaseString (Variable.name p.name) ::
    classes.map (fun q => .releaseString (Variable.cls p.name q)) ++ [.blank]

def declareProperties (interner : Interner) : List Property →
    Except Defect (List Statement)
  | [] => .ok []
  | p :: rest => do
    let first ← declareProperty interner p
    let others ← declareProperties interner rest
    return first ++ others

def registerClass (c : Class) : List Statement :=
  let flags := AccessFlags.ofClass c
  [.declareEntry, .blank, .initEntry c.name, .register c.parent?] ++
    (if flags.isEmpty then [] else [.addFlags flags]) ++
    (if c.interfaces.isEmpty then [] else [.implement c.interfaces]) ++ [.blank]

structure Routine where
  name : String
  /-- The classes whose entries the routine receives. -/
  parameters : List QualifiedName
  body : List Statement
deriving DecidableEq, Repr, Inhabited

namespace Routine

def events (r : Routine) : List Ownership.Event := r.body.flatMap (·.events)

def locals (r : Routine) : List String :=
  r.parameters.map Identifier.classHandle ++ r.body.flatMap (·.declares)

def lines (r : Routine) : List Text.Line :=
  let parameters := match r.parameters with
    | [] => "void"
    | parameters => ", ".intercalate
        (parameters.map fun q => "zend_class_entry *" ++ Identifier.classHandle q)
  [⟨0, s!"static zend_class_entry *{r.name}({parameters})"⟩, ⟨0, "\x7b"⟩] ++
    r.body.map (·.line) ++ [⟨0, "\x7d"⟩]

/-- A routine is made only if the ownership of everything in it is balanced. It receives the parent
and the interfaces, each name once, ASCII case aside. -/
def ofClass (interner : Interner) (c : Class) : Except Defect Routine := do
  let properties ← declareProperties interner c.properties
  let routine : Routine :=
    { name := Identifier.registration c.name
      parameters := Sequence.firstBy (·.folded) c.supertypes
      body := registerClass c ++ properties ++ [.returnEntry] }
  match Ownership.check routine.events with
  | .ok () => return routine
  | .error imbalance => throw (.unbalanced routine.name imbalance)

end Routine

end ExtensionHeader.Header
