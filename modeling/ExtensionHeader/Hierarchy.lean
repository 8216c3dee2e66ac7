import ExtensionHeader.Declaration

/-! The inheritance graph. Its nodes are the declared classes and the classes they inherit from, one
node for each name, ASCII case aside; links lead from a declared class to its supertypes. -/
namespace ExtensionHeader

/-! What can be reached in a finite graph, given by the successors of each node. -/
namespace Reachability

/-- Visits at most `budget` elements of `unseen`, starting with the first one in the frontier; the
frontier then also holds what follows the visited element. -/
def visit [DecidableEq α] (next : α → List α) : (budget : Nat) → (unseen frontier : List α) → List α
  | 0, _, _ => []
  | budget + 1, unseen, frontier =>
    match frontier.dropWhile (· ∉ unseen) with
    | [] => []
    | x :: rest => x :: visit next budget (unseen.erase x) (next x ++ rest)

/-- The elements of `nodes` that can be reached from `frontier` without leaving `nodes`, those
of the frontier included. Every visit takes one element away, so the budget is never short. -/
def explore [DecidableEq α] (next : α → List α) (nodes frontier : List α) : List α :=
  visit next nodes.length nodes frontier

end Reachability

namespace Hierarchy

inductive Link where
  | extends | implements
deriving DecidableEq, Repr, Inhabited

/-- A class as the graph shows it. One that is not declared is not local, and nothing is known of it
but its name. -/
structure Node where
  name : QualifiedName
  /-- The name up to ASCII case, by which nodes are told apart. -/
  key : String := name.folded
  isLocal : Bool := false
  isFinal : Bool := false
  /-- What the class inherits from, its parent first. -/
  links : List (Link × QualifiedName) := []
deriving DecidableEq, Repr, Inhabited

def linksOf (c : Class) : List (Link × QualifiedName) :=
  c.parent?.toList.map (Link.extends, ·) ++ c.interfaces.map (Link.implements, ·)

def Node.ofClass (c : Class) : Node :=
  { name := c.name, isLocal := true, isFinal := c.isFinal, links := linksOf c }

def Node.external (name : QualifiedName) : Node := { name }

end Hierarchy

structure Hierarchy where
  nodes : List Hierarchy.Node
deriving DecidableEq, Repr, Inhabited

namespace Hierarchy

/-- The first declaration of each class, in declaration order, then the supertypes that are not
declared, as each is first spelt. -/
def ofClasses (classes : List Class) : Hierarchy :=
  let declared := Sequence.firstBy (·.key) (classes.map Node.ofClass)
  ⟨Sequence.firstBy (·.key)
    (declared ++ declared.flatMap fun n => n.links.map (Node.external ·.2))⟩

def size (h : Hierarchy) : Nat := h.nodes.length

def isEmpty (h : Hierarchy) : Bool := h.nodes.isEmpty

def find? (h : Hierarchy) (key : String) : Option Node := h.nodes.find? (·.key = key)

def get? (h : Hierarchy) (name : QualifiedName) : Option Node := h.find? name.folded

def supertypes (h : Hierarchy) (name : QualifiedName) : List (Link × Node) :=
  match h.get? name with
  | none => []
  | some n => n.links.filterMap fun (link, q) => (h.get? q).map (link, ·)

def parent? (h : Hierarchy) (name : QualifiedName) : Option Node :=
  ((h.supertypes name).find? (·.1 = .extends)).map (·.2)

def successors (h : Hierarchy) (key : String) : List String :=
  match h.find? key with
  | none => []
  | some n => n.links.map (·.2.folded)

def ancestors (h : Hierarchy) (key : String) : List String :=
  Reachability.explore h.successors (h.nodes.map (·.key)) (h.successors key)

/-- The classes on inheritance cycles. Two of them are listed together when each is an ancestor of
the other. Every list is in the order of the nodes, and so are the lists by their first members. -/
def cycles (h : Hierarchy) : List (List QualifiedName) :=
  let cyclic := (h.nodes.map fun n => (n, h.ancestors n.key)).filter fun (n, above) =>
    n.key ∈ above
  (cyclic.map fun (n, above) =>
    (cyclic.filter fun (m, aboveM) => m.key ∈ above ∧ n.key ∈ aboveM).map (·.1.name)).eraseDups

end Hierarchy

def Extension.hierarchy (e : Extension) : Hierarchy := .ofClasses e.classes

end ExtensionHeader
