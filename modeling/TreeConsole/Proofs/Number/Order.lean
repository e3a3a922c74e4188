import TreeConsole.Proofs.Number.Rounding

/-! Order of rounded numbers.
Rounding keeps the order of numbers and lets none of them pass a floating-point number. So a comparison after rounding
errs only by taking a number to the bound itself, and never where one of the two is a whole number below 2^53.
-/
namespace TreeConsole.Binary64
variable {x : Binary64} {a b : Int}

/-- A magnitude rounded to 53 significant bits, or the overflow threshold when it is beyond all of them. -/
def roundedMagnitude (n m : Nat) : Nat := min (roundUnits n m) overflow

def signed (negative : Bool) (n : Nat) : Int := if negative then -(n : Int) else n

/-- The position of the floating-point number nearest to a number of units. -/
def rounded (units : Int) : Int := signed (units < 0) (roundedMagnitude units.natAbs 1)

/-- A whole number in units. -/
def whole (i : Int) : Int := i * one

theorem position_nearest_signed (negative : Bool) (n m : Nat) :
    (nearest negative n m).position = some (signed negative (roundedMagnitude n m)) := by
  unfold nearest roundedMagnitude
  split
  next small => rw [Nat.min_eq_left (Nat.le_of_lt small)]; rfl
  next large => rw [Nat.min_eq_right (Nat.le_of_not_lt large)]; rfl

theorem whole_neg_iff {i : Int} : whole i < 0 ↔ i < 0 := by
  have positive : (0 : Int) < one := Int.natCast_pos.mpr one_pos
  unfold whole
  generalize (one : Int) = unit at positive
  constructor
  · intro below
    by_contra above
    exact absurd (Int.mul_nonneg (Int.not_lt.mp above) (Int.le_of_lt positive)) (Int.not_le.mpr below)
  · exact fun below => Int.mul_neg_of_neg_of_pos below positive

theorem natAbs_whole (i : Int) : (whole i).natAbs = i.natAbs * one := by
  rw [whole,Int.natAbs_mul,Int.natAbs_natCast]

theorem position_ofInt (i : Int) : (ofInt i).position = some (rounded (whole i)) := by
  rw [ofInt,position_nearest_signed,rounded,natAbs_whole]
  simp only [whole_neg_iff]

theorem position_ofNat (n : Nat) : (ofNat n).position = some (rounded (whole n)) := by
  have unsigned : decide (whole n < 0) = false := by
    rw [decide_eq_false_iff_not,whole_neg_iff]
    omega
  rw [ofNat,position_nearest_signed,rounded,natAbs_whole,unsigned,Int.natAbs_natCast]

theorem rounded_mono (below : a ≤ b) : rounded a ≤ rounded b := by
  have magnitudes {n m : Nat} (less : n ≤ m) : roundedMagnitude n 1 ≤ roundedMagnitude m 1 :=
    min_le_min_right overflow (roundUnits_mono less)
  unfold rounded
  rcases Int.lt_or_le b 0 with negative | positive
  · have larger := @magnitudes b.natAbs a.natAbs (by omega)
    simp only [signed,negative,Int.lt_of_le_of_lt below negative,decide_true,if_true]
    omega
  · have larger (apart : 0 ≤ a) := @magnitudes a.natAbs b.natAbs (by omega)
    have unsigned : decide (b < 0) = false := decide_eq_false (Int.not_lt.mpr positive)
    simp only [signed,unsigned,decide_eq_true_eq,Bool.false_eq_true,if_false]
    split <;> omega

theorem rounded_of_representable (representable : Representable a.natAbs) : rounded a = a := by
  have exact := roundUnits_exact representable Nat.one_pos
  rw [Nat.mul_one] at exact
  rw [rounded,roundedMagnitude,exact,Nat.min_eq_left (Nat.le_of_lt representable.1)]
  simp only [signed,decide_eq_true_eq]
  split <;> omega

/-- A finite floating-point number is rounded to itself. -/
theorem rounded_of_finite (finite : x.isFinite = true) (position : x.position = some a) : rounded a = a := by
  cases x with
  | finite negative units representable =>
    refine rounded_of_representable ?_
    have magnitude : a.natAbs = units := by cases negative <;> cases position <;> simp
    exact magnitude ▸ representable
  | _ => cases finite

theorem exists_position (finite : x.isFinite = true) : ∃ a, x.position = some a := by
  cases x with
  | finite => exact ⟨_,rfl⟩
  | _ => cases finite

theorem rounded_whole {i : Int} (small : i.natAbs ≤ Nat.pow 2 53) : rounded (whole i) = whole i := by
  refine rounded_of_representable ?_
  rw [natAbs_whole]
  rcases Nat.lt_or_eq_of_le small with less | same
  · obtain ⟨k,scaled,fits⟩ : ∃ k, one = Nat.pow 2 k ∧ Nat.pow 2 (53 + k) ≤ overflow :=
      ⟨1074,by decide +kernel,by decide +kernel⟩
    exact scaled ▸ representable_scaled less fits
  · rw [same]
    exact ⟨by decide +kernel,by decide +kernel⟩

theorem whole_le_iff {i j : Int} : whole i ≤ whole j ↔ i ≤ j := by
  unfold whole
  exact Int.mul_le_mul_right (Int.natCast_pos.mpr one_pos)

/-! Comparisons -/

/-- The first size at which neighbouring whole numbers are rounded to one. -/
def grain : Int := whole (Nat.pow 2 53)

/-- Rounding leaves the number alone up to 2^53, as it does with whole and with floating-point numbers. -/
def Exact (a : Int) : Prop := a.natAbs ≤ grain → rounded a = a

/-- Numbers that are rounded to the same one. Neither is below 2^53. -/
structure Blurred (a b : Int) : Prop where
  same : rounded a = rounded b
  first : grain ≤ a.natAbs
  second : grain ≤ b.natAbs

theorem grain_eq : grain = (Nat.pow 2 53 * one : Nat) := (Nat.cast_mul _ _).symm

theorem exact_whole (i : Int) : Exact (whole i) := by
  intro small
  refine rounded_whole ?_
  rw [natAbs_whole,grain_eq] at small
  exact Nat.le_of_mul_le_mul_right (Int.ofNat_le.mp small) one_pos

theorem exact_of_finite (finite : x.isFinite = true) (position : x.position = some a) : Exact a :=
  fun _ => rounded_of_finite finite position

theorem rounded_grain : rounded grain = grain := rounded_whole (Nat.le_refl _)

theorem rounded_neg_grain : rounded (-grain) = -grain := by
  have negated : -grain = whole (-(Nat.pow 2 53 : Nat)) := (Int.neg_mul _ _).symm
  rw [negated]
  exact rounded_whole (by rw [Int.natAbs_neg,Int.natAbs_natCast])

/-- A comparison of rounded numbers is one of the numbers, unless rounding makes them equal. -/
theorem rounded_le_iff (exactA : Exact a) (exactB : Exact b) : rounded a ≤ rounded b ↔ a ≤ b ∨ Blurred a b := by
  constructor
  · intro ordered
    by_cases below : a ≤ b
    · exact .inl below
    refine .inr ?_
    have same : rounded a = rounded b := Int.le_antisymm ordered (rounded_mono (by omega))
    -- A number beyond the grain stays beyond it, where no number below the grain is rounded to.
    have above {n : Int} (large : grain ≤ n) : grain ≤ rounded n := rounded_grain ▸ rounded_mono large
    have beneath {n : Int} (large : n ≤ -grain) : rounded n ≤ -grain := rounded_neg_grain ▸ rounded_mono large
    unfold Exact at exactA exactB
    refine ⟨same,?_,?_⟩
    · by_contra small
      have fixed := exactA (by omega)
      rcases Int.lt_or_le grain b.natAbs with large | small
      · have := @above b
        have := @beneath b
        omega
      · have := exactB small
        omega
    · by_contra small
      have fixed := exactB (by omega)
      rcases Int.lt_or_le grain a.natAbs with large | small
      · have := @above a
        have := @beneath a
        omega
      · have := exactA small
        omega
  · rintro (below | blurred)
    · exact rounded_mono below
    · exact Int.le_of_eq blurred.same

theorem le_iff {y : Binary64} (left : x.position = some a) (right : y.position = some b) : x.le y = true ↔ a ≤ b := by
  rw [le,left,right]
  simp

theorem Blurred.le_natAbs {i : Int} (blurred : Blurred (whole i) b) : Nat.pow 2 53 ≤ i.natAbs := by
  have large := blurred.first
  rw [natAbs_whole,grain_eq] at large
  exact Nat.le_of_mul_le_mul_right (Int.ofNat_le.mp large) one_pos

theorem Blurred.symm (blurred : Blurred a b) : Blurred b a := ⟨blurred.same.symm,blurred.second,blurred.first⟩

/-- No other whole number is rounded to zero. -/
theorem rounded_whole_eq_zero_iff {i : Int} : rounded (whole i) = 0 ↔ i = 0 := by
  have origin : whole 0 = 0 := Int.zero_mul _
  have fixed : rounded (whole 0) = 0 := (rounded_whole (by decide)).trans origin
  constructor
  · intro same
    have apart (blurred : Blurred (whole 0) (whole i)) : False := absurd blurred.le_natAbs (by decide)
    have above := (rounded_le_iff (exact_whole 0) (exact_whole i)).mp (Int.le_of_eq (fixed.trans same.symm))
    have below := (rounded_le_iff (exact_whole i) (exact_whole 0)).mp (Int.le_of_eq (same.trans fixed.symm))
    refine Int.le_antisymm (whole_le_iff.mp (below.resolve_right fun blurred => apart blurred.symm)) ?_
    exact whole_le_iff.mp (above.resolve_right apart)
  · rintro rfl
    exact fixed

/-- Whole numbers are compared as they are where one of them is below 2^53. -/
theorem ofNat_le_ofNat_iff {n m : Nat} (small : min n m < Nat.pow 2 53) : (ofNat n).le (ofNat m) = true ↔ n ≤ m := by
  rw [le_iff (position_ofNat n) (position_ofNat m),rounded_le_iff (exact_whole n) (exact_whole m),whole_le_iff,
    Int.ofNat_le,or_iff_left]
  intro blurred
  have first := blurred.le_natAbs
  have second := blurred.symm.le_natAbs
  rw [Int.natAbs_natCast] at first second
  omega

end TreeConsole.Binary64
