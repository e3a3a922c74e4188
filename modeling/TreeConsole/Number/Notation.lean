import TreeConsole.Number.Shortest

/-! Decimal notation of binary floating-point numbers, written.
A style says which numbers are written without an exponent, whether whole numbers keep a point, and where
ties go. There are two: plain text never has an exponent nor a bare point, and data always shows that a number
is not an integer and turns to exponents outside `10 ^ -5 ≤ |x| < 10 ^ 16`.
-/
namespace TreeConsole

/-- How finite numbers are written. -/
structure NumberStyle where
  tie : Tie
  /-- The scales written without an exponent, all of them when absent. -/
  positional : Option (Int × Int)
  keepsPoint : Bool

namespace NumberStyle
open Number

def plain : NumberStyle := ⟨.away,none,false⟩

def data : NumberStyle := ⟨.even,some (-4,16),true⟩

/-- The digits without trailing zeros, and the exponent of the last one. -/
def significant (d : Decimal) : List Char × Int :=
  let kept := ((digits d.coefficient).reverse.dropWhile (· == '0')).reverse
  if kept.isEmpty then (['0'],0)
  else (kept,d.exponent + ((digits d.coefficient).length - kept.length : Nat))

def zeros (n : Nat) : List Char := List.replicate n '0'

def positionalText (style : NumberStyle) (ds : List Char) (exponent : Int) : List Char :=
  if 0 ≤ exponent then ds ++ zeros exponent.toNat ++ if style.keepsPoint then ['.','0'] else []
  else
    let behind := (-exponent).toNat
    if behind < ds.length then ds.take (ds.length - behind) ++ '.' :: ds.drop (ds.length - behind)
    else '0' :: '.' :: zeros (behind - ds.length) ++ ds

/-- One digit before the point and an exponent that always has a sign. -/
def scientificText (ds : List Char) (exponent : Int) : List Char :=
  let mantissa := match ds with
    | first :: second :: more => first :: '.' :: second :: more
    | _ => ds
  mantissa ++ 'e' :: (if exponent < 0 then '-' else '+') :: digits exponent.natAbs

def text (style : NumberStyle) (units : Nat) : List Char :=
  if units = 0 then positionalText style ['0'] 0
  else
    let (ds,exponent) := significant (Shortest.ofUnits style.tie units)
    let scale := ds.length + exponent
    match style.positional with
    | some (low,high) =>
      if low ≤ scale ∧ scale ≤ high then positionalText style ds exponent else scientificText ds (scale - 1)
    | none => positionalText style ds exponent

end NumberStyle

namespace Binary64

def signText (negative : Bool) : List Char := if negative then ['-'] else []

def plainText : Binary64 → List Char
  | .nan => ['N','a','N']
  | .infinite negative => signText negative ++ ['i','n','f']
  | .finite negative units _ => signText negative ++ NumberStyle.plain.text units

def dataText? : Binary64 → Option (List Char)
  | .finite negative units _ => some (signText negative ++ NumberStyle.data.text units)
  | _ => none

end Binary64
end TreeConsole
