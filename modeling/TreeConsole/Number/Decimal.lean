import TreeConsole.Number.Digits
import TreeConsole.Number.Binary64

/-! Decimal notation of binary floating-point numbers, read.
A number is an optional sign, digits with at most one point and at least one digit, and an optional exponent.
The words for infinity and "not a number" are read in any case. A decimal denotes the nearest binary number;
one whose size alone decides is settled before any power of ten is formed.
-/
namespace TreeConsole

/-- The number `± coefficient · 10 ^ exponent`. -/
structure Decimal where
  negative : Bool
  coefficient : Nat
  exponent : Int
deriving DecidableEq

namespace Decimal
open Number

def largestScale : Int := 310

def smallestScale : Int := -330

/-- The position of the first digit: the number is below `10 ^ scale` and at least a tenth of it. -/
def scale (d : Decimal) : Int := (digits d.coefficient).length + d.exponent

def toBinary64 (d : Decimal) : Binary64 :=
  if d.coefficient = 0 ∨ d.scale < smallestScale then Binary64.nearest d.negative 0 1
  else if largestScale < d.scale then .infinite d.negative
  else if 0 ≤ d.exponent then
    Binary64.nearest d.negative (d.coefficient * Nat.pow 10 d.exponent.toNat * Binary64.one) 1
  else Binary64.nearest d.negative (d.coefficient * Binary64.one) (Nat.pow 10 (-d.exponent).toNat)

def readExponent? : List Char → Option Int
  | [] => some 0
  | 'e' :: rest | 'E' :: rest => readInt? rest
  | _ => none

def takeDigits (cs : List Char) : List Char × List Char := cs.span Char.isDigit

def read? (cs : List Char) : Option Decimal :=
  let (negative,unsigned) := takeSign cs
  let (whole,rest) := takeDigits unsigned
  let (fraction,rest) := match rest with
    | '.' :: more => takeDigits more
    | _ => ([],rest)
  if whole.isEmpty && fraction.isEmpty then none
  else (readExponent? rest).map fun exponent =>
    ⟨negative,ofDigits (whole ++ fraction),exponent - fraction.length⟩

end Decimal

namespace Binary64

def readName? (cs : List Char) : Option Binary64 :=
  let (negative,name) := Number.takeSign cs
  match (String.ofList (name.map Char.toLower)) with
  | "inf" | "infinity" => some (.infinite negative)
  | "nan" => some .nan
  | _ => none

def read? (cs : List Char) : Option Binary64 :=
  (readName? cs).or ((Decimal.read? cs).map Decimal.toBinary64)

end Binary64
end TreeConsole
