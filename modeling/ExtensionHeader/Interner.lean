/-! A table that numbers distinct texts in the order in which they are first given. -/
namespace ExtensionHeader

structure Symbol where
  index : UInt32
deriving DecidableEq, Repr, Inhabited

structure Interner where
  strings : List String := []
deriving DecidableEq, Repr, Inhabited

namespace Interner

def empty : Interner := {}

def size (t : Interner) : Nat := t.strings.length

def isEmpty (t : Interner) : Bool := t.strings.isEmpty

def get? (t : Interner) (s : String) : Option Symbol :=
  (t.strings.idxOf? s).map fun i => ⟨UInt32.ofNat i⟩

/-- A text given before keeps its symbol; a new one is added at the end. -/
def intern (t : Interner) (s : String) : Interner × Symbol :=
  match t.get? s with
  | some symbol => (t, symbol)
  | none => (⟨t.strings ++ [s]⟩, ⟨UInt32.ofNat t.size⟩)

def resolve? (t : Interner) (symbol : Symbol) : Option String := t.strings[symbol.index.toNat]?

def internAll (t : Interner) (texts : List String) : Interner :=
  texts.foldl (fun t s => (t.intern s).1) t

def ofList (texts : List String) : Interner := empty.internAll texts

@[simp] theorem internAll_nil (t : Interner) : t.internAll [] = t := rfl

@[simp] theorem internAll_cons (t : Interner) (s : String) (rest : List String) :
    t.internAll (s :: rest) = (t.intern s).1.internAll rest := rfl

end Interner

end ExtensionHeader
