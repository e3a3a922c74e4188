/-! Binary floating-point numbers of 64 bits.
A finite number is a sign and a magnitude counted in units of 2^-1074, so the magnitude is a whole number.
It is representable when it is below 2^1024 and has at most 53 significant bits. `nearest` rounds a
quotient of whole numbers to the nearest representable magnitude, a tie to the even neighbour, and goes to
infinity from 2^1024 on. Zero keeps its sign, equals its negative, and nothing equals "not a number".
-/
namespace TreeConsole

/-- The quotient `a / b` rounded to the nearest whole number, a half to the even neighbour. -/
def roundHalfEven (a b : Nat) : Nat :=
  let below := a / b
  let rest := a % b
  if 2 * rest < b then below else if b < 2 * rest then below + 1 else below + below % 2

namespace Binary64

/-- Units in one. -/
def one : Nat := Nat.pow 2 1074

/-- The first magnitude that is too large, 2^1024. -/
def overflow : Nat := Nat.pow 2 2098

/-- At most 53 significant bits, and below the overflow threshold. -/
def Representable (units : Nat) : Prop := units < overflow ∧ Nat.pow 2 (units.log2 - 52) ∣ units

/-- The magnitude of `a / b` units, rounded to 53 significant bits. -/
def roundUnits (a b : Nat) : Nat :=
  let spare := (a / b).log2 - 52
  roundHalfEven a (b * Nat.pow 2 spare) * Nat.pow 2 spare

end Binary64

inductive Binary64 where
  | nan
  | infinite (negative : Bool)
  | finite (negative : Bool) (units : Nat) (representable : Binary64.Representable units)
deriving DecidableEq

namespace Binary64

theorem roundHalfEven_le (a b : Nat) : roundHalfEven a b ≤ a / b + 1 := by
  unfold roundHalfEven
  dsimp only
  split
  · omega
  · split
    · omega
    · have := Nat.mod_lt (a / b) (by decide : 2 > 0)
      omega

theorem log2_mul_pow {n : Nat} (positive : n ≠ 0) (k : Nat) : (n * Nat.pow 2 k).log2 = n.log2 + k := by
  induction k with
  | zero => exact congrArg Nat.log2 (Nat.mul_one n)
  | succ k ih =>
    have nonzero : n * Nat.pow 2 k ≠ 0 := Nat.mul_ne_zero positive (Nat.ne_of_gt (Nat.pow_pos (by decide)))
    have double : n * Nat.pow 2 (k + 1) = 2 * (n * Nat.pow 2 k) := by
      rw [Nat.mul_comm 2,Nat.mul_assoc]
      rfl
    rw [double,Nat.log2_two_mul nonzero,ih,Nat.add_assoc]

theorem significand_le (a b : Nat) :
    roundHalfEven a (b * Nat.pow 2 ((a / b).log2 - 52)) ≤ Nat.pow 2 53 := by
  refine Nat.le_trans (roundHalfEven_le _ _) ?_
  rw [← Nat.div_div_eq_div_mul]
  have wide : a / b < Nat.pow 2 (53 + ((a / b).log2 - 52)) :=
    Nat.lt_of_lt_of_le Nat.lt_log2_self (Nat.pow_le_pow_right (by decide) (by omega))
  have split : Nat.pow 2 (53 + ((a / b).log2 - 52)) = Nat.pow 2 ((a / b).log2 - 52) * Nat.pow 2 53 :=
    (Nat.pow_add 2 53 _).trans (Nat.mul_comm _ _)
  exact Nat.div_lt_of_lt_mul (split ▸ wide)

/-- Rounding leaves at most 53 significant bits. -/
theorem roundUnits_divisible (a b : Nat) : Nat.pow 2 ((roundUnits a b).log2 - 52) ∣ roundUnits a b := by
  unfold roundUnits
  dsimp only
  have bound := significand_le a b
  revert bound
  generalize (a / b).log2 - 52 = spare
  generalize roundHalfEven a (b * Nat.pow 2 spare) = r
  intro bound
  rcases Nat.eq_zero_or_pos r with rfl | positive
  · rw [Nat.zero_mul]
    exact Nat.dvd_zero _
  rw [log2_mul_pow (by omega)]
  rcases Nat.lt_or_eq_of_le bound with small | rfl
  · have low : r.log2 < 53 := (Nat.log2_lt (by omega)).mpr small
    exact Nat.dvd_trans (Nat.pow_dvd_pow 2 (by omega)) (Nat.dvd_mul_left _ _)
  · have whole : Nat.pow 2 53 * Nat.pow 2 spare = Nat.pow 2 (53 + spare) := (Nat.pow_add 2 53 spare).symm
    rw [whole]
    exact Nat.pow_dvd_pow 2 (by rw [show (Nat.pow 2 53).log2 = 53 from Nat.log2_two_pow]; omega)

/-- The number nearest to `± a / b` units. -/
def nearest (negative : Bool) (a b : Nat) : Binary64 :=
  if small : roundUnits a b < overflow then .finite negative (roundUnits a b) ⟨small,roundUnits_divisible a b⟩
  else .infinite negative

theorem overflow_pos : 0 < overflow := by decide +kernel

def zero : Binary64 := .finite false 0 ⟨overflow_pos,Nat.dvd_zero _⟩

def ofInt (i : Int) : Binary64 := nearest (i < 0) (i.natAbs * one) 1

def ofNat (n : Nat) : Binary64 := nearest false (n * one) 1

def isFinite : Binary64 → Bool
  | .finite .. => true
  | _ => false

def position : Binary64 → Option Int
  | .nan => none
  | .infinite negative => some (if negative then -(overflow : Int) else overflow)
  | .finite negative units _ => some (if negative then -(units : Int) else units)

/-- Numeric order; "not a number" is below and above nothing. -/
def le (x y : Binary64) : Bool :=
  match x.position,y.position with
  | some a,some b => a ≤ b
  | _,_ => false

/-- Numeric equality: the two zeros are equal. -/
def same (x y : Binary64) : Bool :=
  match x.position,y.position with
  | some a,some b => a == b
  | _,_ => false

def isZero (x : Binary64) : Bool := x.same zero

end Binary64
end TreeConsole
