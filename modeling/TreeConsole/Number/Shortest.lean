import TreeConsole.Number.Decimal

/-! The fewest digits that read back.
Of the decimals with one digit, two digits and so on, the first that denotes a given binary magnitude is
taken; of two with equally many digits the nearer, and a tie goes as asked. Seventeen digits always suffice;
the exact expansion stands behind them.
-/
namespace TreeConsole

/-- Where a value halfway between two shortest decimals goes. -/
inductive Tie where
  | away
  | even
deriving DecidableEq

namespace Shortest
open Number

def readsBack (units coefficient : Nat) (exponent : Int) : Bool :=
  match Decimal.toBinary64 ⟨false,coefficient,exponent⟩ with
  | .finite _ m _ => m == units
  | _ => false

/-- The magnitude measured in steps of `10 ^ exponent`, as a quotient. -/
def inSteps (units : Nat) (exponent : Int) : Nat × Nat :=
  if 0 ≤ exponent then (units,Binary64.one * Nat.pow 10 exponent.toNat)
  else (units * Nat.pow 10 (-exponent).toNat,Binary64.one)

/-- The nearer of the two neighbours of a magnitude on the grid of `10 ^ exponent` that reads back. -/
def onGrid (tie : Tie) (units : Nat) (exponent : Int) : Option Decimal :=
  let (a,b) := inSteps units exponent
  let below := a / b
  let rest := a % b
  let decimal (n : Nat) : Decimal := ⟨false,n,exponent⟩
  match readsBack units below exponent,readsBack units (below + 1) exponent with
  | false,false => none
  | true,false => some (decimal below)
  | false,true => some (decimal (below + 1))
  | true,true =>
    if 2 * rest < b then some (decimal below)
    else if b < 2 * rest then some (decimal (below + 1))
    else match tie with
      | .away => some (decimal (below + 1))
      | .even => some (decimal (below + below % 2))

/-- Digits before the point, counted negatively when the first digit stands behind it. -/
def scaleOf (units : Nat) : Int := (digits (units * Nat.pow 10 400 / Binary64.one)).length - 400

/-- All digits of a magnitude: `units / 2 ^ 1074 = units * 5 ^ 1074 / 10 ^ 1074`. -/
def exact (units : Nat) : Decimal := ⟨false,units * Nat.pow 5 1074,-1074⟩

def ofUnits (tie : Tie) (units : Nat) : Decimal :=
  let scale := scaleOf units
  ((List.range 17).findSome? fun n => onGrid tie units (scale - (n + 1 : Nat))).getD (exact units)

end Shortest
end TreeConsole
