/-! IEEE 754 binary64 numbers, given by their 64 bits. A finite number has the magnitude
`significand * 2 ^ exponent`. -/
namespace ExtensionHeader

structure Binary64 where
  bits : UInt64
deriving DecidableEq, Repr, Inhabited

namespace Binary64

/-- The leading one of a normal significand, `2 ^ 52`. It is not stored. -/
def leadingOne : Nat := 0x10000000000000

def isNegative (x : Binary64) : Bool := x.bits.toNat / leadingOne / 2048 = 1

def exponentField (x : Binary64) : Nat := x.bits.toNat / leadingOne % 2048

def fraction (x : Binary64) : Nat := x.bits.toNat % leadingOne

def isNaN (x : Binary64) : Bool := x.exponentField = 2047 && x.fraction ≠ 0

def isInfinite (x : Binary64) : Bool := x.exponentField = 2047 && x.fraction = 0

def isZero (x : Binary64) : Bool := x.exponentField = 0 && x.fraction = 0

def significand (x : Binary64) : Nat :=
  if x.exponentField = 0 then x.fraction else leadingOne + x.fraction

def exponent (x : Binary64) : Int := (max x.exponentField 1 : Nat) - 1075

/-- Numbers that compare equal have one canonical form: all NaNs count as equal, and so do the two
zeros. -/
def canonical (x : Binary64) : Binary64 :=
  if x.isNaN then ⟨0x7ff8000000000000⟩ else if x.isZero then ⟨0⟩ else x

end Binary64

end ExtensionHeader
