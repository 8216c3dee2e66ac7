import ExtensionHeader.Decimal.Binary64

/-! The shortest decimal that reads back as a given binary64 number. The reals that round to the
number form an interval; on the grids of one, two, three and more significant digits the two grid
points next to the number are tried, and the first grid with a point in the interval gives the
answer. All arithmetic is exact. -/
namespace ExtensionHeader

structure Decimal where
  coefficient : Nat
  exponent : Int
deriving DecidableEq, Repr, Inhabited

/-- The reals that round to one number. The number itself is `value / unit` and the ends are
`low / unit` and `high / unit`, which belong to the interval when it is closed. -/
structure RoundingInterval where
  value : Nat
  low : Nat
  high : Nat
  unit : Nat
  isClosed : Bool
deriving DecidableEq, Repr, Inhabited

namespace RoundingInterval

/-- The interval of a finite number. Below a power of two the neighbours are twice as near, and
an end rounds to the number exactly when the significand is even. -/
def of (x : Binary64) : RoundingInterval :=
  let m := x.significand
  let up := Nat.pow 2 x.exponent.toNat
  let below := if x.fraction = 0 ∧ 1 < x.exponentField then 1 else 2
  { value := 4 * m * up
    low := (4 * m - below) * up
    high := (4 * m + 2) * up
    unit := 4 * Nat.pow 2 (-x.exponent).toNat
    isClosed := m % 2 = 0 }

def inUnitsOf (i : RoundingInterval) (e : Int) : RoundingInterval :=
  let up := Nat.pow 10 (-e).toNat
  { value := i.value * up
    low := i.low * up
    high := i.high * up
    unit := i.unit * Nat.pow 10 e.toNat
    isClosed := i.isClosed }

def contains (i : RoundingInterval) (k : Nat) : Bool :=
  if i.isClosed then i.low ≤ k * i.unit && k * i.unit ≤ i.high
  else i.low < k * i.unit && k * i.unit < i.high

/-- Of the two integers next to the number, the one in the interval; of two, the nearer, and the
larger when both are equally near. -/
def nearest? (i : RoundingInterval) : Option Nat :=
  let k := i.value / i.unit
  match i.contains k, i.contains (k + 1) with
  | true, false => some k
  | false, true => some (k + 1)
  | true, true => some (if 2 * (i.value % i.unit) < i.unit then k else k + 1)
  | false, false => none

/-- The exponent `e` with `10 ^ e ≤ v < 10 ^ (e + 1)` for the number `v`, when `v` is at least
`10 ^ (-330)`. -/
def decade (i : RoundingInterval) : Int :=
  (Nat.toDigits 10 (i.value * Nat.pow 10 330 / i.unit)).length - 331

/-- Tries the grid with the unit `10 ^ e` and then ever finer ones, `steps` in all. On the last one
the number is rounded down. -/
def search (i : RoundingInterval) : (steps : Nat) → (e : Int) → Decimal
  | 0, e => ⟨(i.inUnitsOf e).value / (i.inUnitsOf e).unit, e⟩
  | steps + 1, e =>
    match (i.inUnitsOf e).nearest? with
    | some k => ⟨k, e⟩
    | none => search i steps (e - 1)

end RoundingInterval

/-- Zero has no shortest form of its own and is written with the single digit `0`. On the last grid
of the search every binary64 number is a grid point. -/
def Binary64.shortest (x : Binary64) : Decimal :=
  if x.isZero then ⟨0, 0⟩
  else
    let i := RoundingInterval.of x
    i.search ((-x.exponent).toNat + (i.decade + 1).toNat) i.decade

end ExtensionHeader
