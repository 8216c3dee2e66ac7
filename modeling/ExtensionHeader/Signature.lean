import ExtensionHeader.Text.Digest
import ExtensionHeader.Typing.Declared

/-! Signatures of functions and methods. Two signatures are the same when all that a caller can see
of them is equal, and a digest of 64 bits stands for a signature in look-ups. -/
namespace ExtensionHeader

structure Parameter where
  name : String
  type? : Option DeclaredType := none
  default? : Option DefaultValue := none
  byReference : Bool := false
  isVariadic : Bool := false
deriving DecidableEq, Repr, Inhabited

def Parameter.isOptional (p : Parameter) : Bool := p.default?.isSome || p.isVariadic

def Parameter.canonical (p : Parameter) : Parameter :=
  { p with default? := p.default?.map (·.canonical) }

structure Signature where
  parameters : List Parameter := []
  returns? : Option DeclaredType := none
  returnsReference : Bool := false
deriving DecidableEq, Repr, Inhabited

namespace Signature

/-- The number of arguments that every call gives: those before the first optional parameter. -/
def required (s : Signature) : Nat :=
  (s.parameters.takeWhile fun p => !p.isOptional).length

def canonical (s : Signature) : Signature :=
  { s with parameters := s.parameters.map (·.canonical) }

/-- Equality of signatures, in which float defaults are compared as numbers and NaN equals NaN. -/
def Same (s t : Signature) : Prop := s.canonical = t.canonical

instance (s t : Signature) : Decidable (s.Same t) :=
  inferInstanceAs (Decidable (s.canonical = t.canonical))

namespace Digest

def typeKey (type? : Option DeclaredType) : String :=
  (type?.map (·.display)).getD "_"

def parameterKey (p : Parameter) : String :=
  ":".intercalate [p.name, typeKey p.type?, Text.bit p.byReference, Text.bit p.isVariadic,
    (p.default?.map (·.literal)).getD "-"]

def markers : List UInt64 :=
  [0x9e3779b97f4a7c15, 0xbf58476d1ce4e5b9, 0x94d049bb133111eb, 0xd6e8feb86659fd93,
    0xe7037ed1a0b428db, 0xc6a4a7935bd1e995, 0x8648dbbc94d49b8d, 0xa2b48b2c69e0d657]

def marker (position : Nat) : UInt64 :=
  markers[position]?.getD (0x9e3779b97f4a7c15 + UInt64.ofNat position)

def start (s : Signature) : UInt64 :=
  0x5ea77ffbcdf5f302 ^^^ 0x7d3c8b4a92e15f6d * Text.Digest.ofText (typeKey s.returns?) ^^^
    (if s.returnsReference then 1 else 0)

def step (digest : UInt64) (entry : Parameter × Nat) : UInt64 :=
  digest * 0x4bc94d6bd06053ad + (marker entry.2 ^^^ Text.Digest.ofText (parameterKey entry.1))

end Digest

/-- Covers the return type and the name, type, flags and default of each parameter. -/
def digest (s : Signature) : UInt64 := s.parameters.zipIdx.foldl Digest.step (Digest.start s)

def digestText (s : Signature) : String :=
  let hex := String.ofList (Nat.toDigits 16 s.digest.toNat)
  "SignatureHash(0x" ++ "".pushn '0' (16 - hex.length) ++ hex ++ ")"

end Signature

end ExtensionHeader
