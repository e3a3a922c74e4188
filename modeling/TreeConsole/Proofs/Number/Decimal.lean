import TreeConsole.Number.Shortest
import TreeConsole.Proofs.Number.Rounding

/-! Decimals and the numbers they denote.
A decimal denotes a binary number by its value: zeros may move between the coefficient and the exponent. The decimal
chosen for a magnitude denotes it again.
-/
namespace TreeConsole
variable {negative : Bool} {coefficient units n k : Nat} {exponent : Int}

namespace Number

theorem digits_mul_pow (positive : 0 < n) (k : Nat) : digits (n * Nat.pow 10 k) = digits n ++ List.replicate k '0' := by
  induction k with
  | zero => simp
  | succ k ih =>
    have nonzero : 0 < n * Nat.pow 10 k := Nat.mul_pos positive (Nat.pow_pos (by decide))
    have tenfold : n * Nat.pow 10 (k + 1) = 10 * (n * Nat.pow 10 k) + 0 := by simp only [Nat.pow_eq]; ring
    have split : digits (10 * (n * Nat.pow 10 k) + 0) = digits (n * Nat.pow 10 k) ++ digits 0 :=
      (Nat.toDigits_append_toDigits (by decide) nonzero (by decide)).symm
    rw [tenfold,split,ih,List.append_assoc,List.replicate_succ']
    rfl

theorem length_digits_mul_pow (positive : 0 < n) (k : Nat) :
    (digits (n * Nat.pow 10 k)).length = (digits n).length + k := by
  rw [digits_mul_pow positive,List.length_append,List.length_replicate]

theorem length_digits_le_iff (positive : 0 < k) : (digits n).length ≤ k ↔ n < Nat.pow 10 k :=
  Nat.length_toDigits_le_iff (by decide) positive

theorem lt_length_digits (large : Nat.pow 10 k ≤ n) : k < (digits n).length := by
  apply Nat.lt_of_not_le
  intro few
  rcases Nat.eq_zero_or_pos k with rfl | positive
  · exact digits_ne_nil n (List.length_eq_zero_iff.mp (Nat.le_zero.mp few))
  · exact Nat.not_le_of_lt ((length_digits_le_iff positive).mp few) large

end Number

namespace Decimal
open Number Binary64
variable {d : Decimal}

theorem toBinary64_zero : toBinary64 ⟨negative,0,exponent⟩ = .finite negative 0 ⟨overflow_pos,Nat.dvd_zero _⟩ := by
  rw [toBinary64,if_pos (.inl rfl),nearest_zero (by decide)]

theorem toBinary64_small (small : d.scale < smallestScale) : d.toBinary64 = nearest d.negative 0 1 := by
  rw [toBinary64,if_pos (.inr small)]

theorem toBinary64_large (nonzero : d.coefficient ≠ 0) (large : largestScale < d.scale) :
    d.toBinary64 = .infinite d.negative := by
  have below : smallestScale < d.scale := Int.lt_trans (by decide) large
  rw [toBinary64,if_neg (not_or.mpr ⟨nonzero,Int.not_lt.mpr (Int.le_of_lt below)⟩),if_pos large]

/-- The number of units in the value, as a quotient. -/
def fraction (d : Decimal) : Nat × Nat :=
  (d.coefficient * Nat.pow 10 d.exponent.toNat * one,Nat.pow 10 (-d.exponent).toNat)

theorem toBinary64_medium (nonzero : d.coefficient ≠ 0) (low : smallestScale ≤ d.scale) (high : d.scale ≤ largestScale) :
    d.toBinary64 = nearest d.negative d.fraction.1 d.fraction.2 := by
  rw [toBinary64,if_neg (not_or.mpr ⟨nonzero,Int.not_lt.mpr low⟩),if_neg (Int.not_lt.mpr high),fraction]
  split
  next whole =>
    have denominator : (-d.exponent).toNat = 0 := by omega
    rw [denominator]
  next broken =>
    have numerator : d.exponent.toNat = 0 := by omega
    rw [numerator]
    exact congrArg (fun n => nearest d.negative (n * one) _) (Nat.mul_one d.coefficient).symm

theorem fraction_cross (k : Nat) :
    (fraction ⟨negative,coefficient * Nat.pow 10 k,exponent⟩).1 * (fraction ⟨negative,coefficient,exponent + k⟩).2 =
      (fraction ⟨negative,coefficient,exponent + k⟩).1 * (fraction ⟨negative,coefficient * Nat.pow 10 k,exponent⟩).2 := by
  have balanced : k + exponent.toNat + (-(exponent + k)).toNat = (exponent + k).toNat + (-exponent).toNat := by omega
  have powers := congrArg (Nat.pow 10) balanced
  simp only [fraction,Nat.pow_eq,Nat.pow_add] at powers ⊢
  calc coefficient * 10 ^ k * 10 ^ exponent.toNat * one * 10 ^ (-(exponent + k)).toNat
      = coefficient * one * (10 ^ k * 10 ^ exponent.toNat * 10 ^ (-(exponent + k)).toNat) := by ring
    _ = coefficient * one * (10 ^ (exponent + k).toNat * 10 ^ (-exponent).toNat) := by rw [powers]
    _ = coefficient * 10 ^ (exponent + k).toNat * one * 10 ^ (-exponent).toNat := by ring

/-- Zeros at the end of the coefficient count as much as in the exponent. -/
theorem toBinary64_shift (k : Nat) :
    toBinary64 ⟨negative,coefficient * Nat.pow 10 k,exponent⟩ = toBinary64 ⟨negative,coefficient,exponent + k⟩ := by
  rcases Nat.eq_zero_or_pos coefficient with rfl | positive
  · rw [Nat.zero_mul,toBinary64_zero,toBinary64_zero]
  have nonzero : coefficient ≠ 0 := Nat.ne_of_gt positive
  have shifted : coefficient * Nat.pow 10 k ≠ 0 := Nat.mul_ne_zero nonzero (Nat.ne_of_gt (Nat.pow_pos (by decide)))
  -- Both are beyond the limits of the scale, or neither is.
  have scales : scale ⟨negative,coefficient * Nat.pow 10 k,exponent⟩ = scale ⟨negative,coefficient,exponent + k⟩ := by
    simp only [scale,length_digits_mul_pow positive]
    omega
  rcases Int.lt_or_le (scale ⟨negative,coefficient,exponent + k⟩) smallestScale with small | low
  · rw [toBinary64_small (scales.trans_lt small),toBinary64_small small]
  rcases Int.lt_or_le largestScale (scale ⟨negative,coefficient,exponent + k⟩) with large | high
  · rw [toBinary64_large shifted (large.trans_eq scales.symm),toBinary64_large nonzero large]
  · rw [toBinary64_medium shifted (low.trans_eq scales.symm) (scales.trans_le high),toBinary64_medium nonzero low high]
    exact nearest_cross (Nat.pow_pos (by decide)) (Nat.pow_pos (by decide)) (fraction_cross k)

theorem sign_toBinary64 {sign : Bool} {representable : Representable units}
    (denoted : d.toBinary64 = .finite sign units representable) : sign = d.negative := by
  unfold toBinary64 at denoted
  split at denoted
  · exact (nearest_eq_finite_iff.mp denoted).1
  · split at denoted
    · cases denoted
    · split at denoted
      · exact (nearest_eq_finite_iff.mp denoted).1
      · exact (nearest_eq_finite_iff.mp denoted).1

/-- The sign of a decimal is the sign of its number and changes nothing else. -/
theorem toBinary64_signed {representable : Representable units}
    (unsigned : toBinary64 ⟨false,coefficient,exponent⟩ = .finite false units representable) (negative : Bool) :
    toBinary64 ⟨negative,coefficient,exponent⟩ = .finite negative units representable := by
  by_cases zero : coefficient = 0
  · subst zero
    rw [toBinary64_zero] at unsigned ⊢
    cases unsigned
    rfl
  have resigned {a b : Nat} (rounded : nearest false a b = .finite false units representable) :
      nearest negative a b = .finite negative units representable :=
    nearest_eq_finite_iff.mpr ⟨rfl,(nearest_eq_finite_iff.mp rounded).2⟩
  let signed : Decimal := ⟨negative,coefficient,exponent⟩
  let plain : Decimal := ⟨false,coefficient,exponent⟩
  rcases Int.lt_or_le plain.scale smallestScale with small | low
  · rw [@toBinary64_small plain small] at unsigned
    exact (@toBinary64_small signed small).trans (resigned unsigned)
  rcases Int.lt_or_le largestScale plain.scale with large | high
  · rw [@toBinary64_large plain zero large] at unsigned
    cases unsigned
  · rw [@toBinary64_medium plain zero low high] at unsigned
    exact (@toBinary64_medium signed zero low high).trans (resigned unsigned)

/-- A magnitude written with a power of ten in place of the power of two that counts its units. -/
theorem toBinary64_expanded {fives : Nat} (representable : Representable units) (nonzero : units ≠ 0)
    (tens : fives * one = Nat.pow 10 k) (least : Nat.pow 10 (k - 324) ≤ fives)
    (most : overflow * fives < Nat.pow 10 (k + 310)) :
    toBinary64 ⟨false,units * fives,-(k : Int)⟩ = .finite false units representable := by
  have positive : 0 < fives := Nat.lt_of_lt_of_le (Nat.pow_pos (by decide)) least
  have large : Nat.pow 10 (k - 324) ≤ units * fives :=
    Nat.le_trans least (Nat.le_mul_of_pos_left _ (Nat.pos_of_ne_zero nonzero))
  have small : units * fives < Nat.pow 10 (k + 310) :=
    Nat.lt_trans (Nat.mul_lt_mul_of_pos_right representable.1 positive) most
  have few : (digits (units * fives)).length ≤ k + 310 := (length_digits_le_iff (by omega)).mpr small
  have low : smallestScale ≤ scale ⟨false,units * fives,-(k : Int)⟩ := by
    have many := lt_length_digits large
    simp only [scale,smallestScale]
    omega
  have high : scale ⟨false,units * fives,-(k : Int)⟩ ≤ largestScale := by
    simp only [scale,largestScale]
    omega
  have numerator : (fraction ⟨false,units * fives,-(k : Int)⟩).1 = units * Nat.pow 10 k := by
    have whole : (-(k : Int)).toNat = 0 := by omega
    rw [fraction,whole,← tens,← Nat.mul_assoc]
    exact congrArg (· * one) (Nat.mul_one (units * fives))
  have denominator : (fraction ⟨false,units * fives,-(k : Int)⟩).2 = Nat.pow 10 k := by
    have places : (-(-(k : Int))).toNat = k := by omega
    rw [fraction,places]
  rw [toBinary64_medium (Nat.mul_ne_zero nonzero (Nat.ne_of_gt positive)) low high,numerator,denominator]
  exact nearest_exact representable (Nat.pow_pos (by decide))

end Decimal

namespace Shortest
open Binary64 Decimal Number
variable {tie : Tie} {d : Decimal}

theorem readsBack_iff (representable : Representable units) :
    readsBack units coefficient exponent = true ↔
      toBinary64 ⟨false,coefficient,exponent⟩ = .finite false units representable := by
  unfold readsBack
  constructor
  · intro same
    split at same
    next sign m rep denoted =>
      obtain rfl := beq_iff_eq.mp same
      cases sign with
      | false => exact denoted
      | true => cases sign_toBinary64 denoted
    next => cases same
  · intro denoted
    rw [denoted]
    exact beq_self_eq_true units

theorem onGrid_readsBack (found : onGrid tie units exponent = some d) :
    d = ⟨false,d.coefficient,d.exponent⟩ ∧ readsBack units d.coefficient d.exponent = true := by
  unfold onGrid at found
  dsimp only at found
  split at found
  case h_1 => cases found
  case h_2 below _ => cases found; exact ⟨rfl,below⟩
  case h_3 _ above => cases found; exact ⟨rfl,above⟩
  case h_4 below above =>
    split at found
    · cases found; exact ⟨rfl,below⟩
    · split at found
      · cases found; exact ⟨rfl,above⟩
      · cases tie with
        | away => cases found; exact ⟨rfl,above⟩
        | even =>
          cases found
          refine ⟨rfl,?_⟩
          rcases Nat.mod_two_eq_zero_or_one ((inSteps units exponent).1 / (inSteps units exponent).2) with even | odd
          · simpa only [even,Nat.add_zero] using below
          · simpa only [odd] using above

/-- The exact expansion has neither too few digits for the smallest numbers nor too many for the largest. -/
theorem exact_denotes (representable : Representable units) (nonzero : units ≠ 0) :
    toBinary64 ⟨false,(exact units).coefficient,(exact units).exponent⟩ = .finite false units representable :=
  @toBinary64_expanded units 1074 (Nat.pow 5 1074) representable nonzero (by decide +kernel) (by decide +kernel)
    (by decide +kernel)

theorem ofUnits_denotes (tie : Tie) (representable : Representable units) (nonzero : units ≠ 0) (negative : Bool) :
    toBinary64 ⟨negative,(ofUnits tie units).coefficient,(ofUnits tie units).exponent⟩ =
      .finite negative units representable := by
  refine toBinary64_signed ?_ negative
  -- A short candidate was chosen because it reads back; without one the expansion is exact.
  cases found : (List.range 17).findSome? fun n => onGrid tie units (scaleOf units - (n + 1 : Nat)) with
  | none =>
    have chosen : ofUnits tie units = exact units := by rw [ofUnits,found,Option.getD_none]
    rw [chosen]
    exact exact_denotes representable nonzero
  | some d =>
    have chosen : ofUnits tie units = d := by rw [ofUnits,found,Option.getD_some]
    obtain ⟨n,_,onIt⟩ := List.exists_of_findSome?_eq_some found
    rw [chosen]
    exact (readsBack_iff representable).mp (onGrid_readsBack onIt).2

end Shortest
end TreeConsole
