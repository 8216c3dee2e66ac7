import ExtensionHeader.Decimal.Shortest

/-! How a binary64 number is written: with the fewest digits that read back, and always with a
decimal point or an exponent, so that it never reads as an integer. -/
namespace ExtensionHeader

namespace Decimal

def digits (d : Decimal) : List Char :=
  let all := Nat.toDigits 10 d.coefficient
  match (all.reverse.dropWhile (· = '0')).reverse with
  | [] => ['0']
  | significant => significant

def leading (d : Decimal) : Int :=
  d.exponent + ((Nat.toDigits 10 d.coefficient).length : Nat) - 1

/-- Digits around a decimal point that stands `point` places after the first digit; both sides of
it show at least one digit. -/
def positional (digits : List Char) (point : Int) : List Char :=
  if point ≤ 0 then '0' :: '.' :: List.replicate (-point).toNat '0' ++ digits
  else
    let n := point.toNat
    let whole := digits.take n ++ List.replicate (n - digits.length) '0'
    match digits.drop n with
    | [] => whole ++ ['.', '0']
    | rest => whole ++ '.' :: rest

def scientific (digits : List Char) (exponent : Int) : List Char :=
  let mantissa := match digits with
    | d :: e :: rest => d :: '.' :: e :: rest
    | short => short
  mantissa ++ 'e' :: (toString exponent).toList

/-- Numbers from `0.0001` up to but not including `10 ^ 16` are written positionally. -/
def text (d : Decimal) : List Char :=
  if -4 ≤ d.leading ∧ d.leading < 16 then positional d.digits (d.leading + 1)
  else scientific d.digits d.leading

end Decimal

def Binary64.text (x : Binary64) : String :=
  if x.isNaN then "NAN"
  else if x.isInfinite then if x.isNegative then "-INF" else "INF"
  else
    let magnitude := x.shortest.text
    String.ofList (if x.isNegative then '-' :: magnitude else magnitude)

end ExtensionHeader
