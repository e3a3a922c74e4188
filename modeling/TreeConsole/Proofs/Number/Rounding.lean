import TreeConsole.Number.Binary64
import Mathlib.Tactic.Ring

/-! Laws of rounding.
Rounding depends on a quotient and not on how it is written, leaves representable magnitudes alone and keeps the order.
-/
namespace TreeConsole
variable {a b c d k n m units : Nat} {negative : Bool}

theorem le_roundHalfEven (a b : Nat) : a / b ≤ roundHalfEven a b := by
  unfold roundHalfEven
  dsimp only
  split
  · exact Nat.le_refl _
  · split
    · exact Nat.le_succ _
    · exact Nat.le_add_right _ _

theorem roundHalfEven_mul (positive : 0 < k) : roundHalfEven (a * k) (b * k) = roundHalfEven a b := by
  have rest : a * k % (b * k) = a % b * k := Nat.mul_mod_mul_right k a b
  have left : 2 * (a % b * k) < b * k ↔ 2 * (a % b) < b := by
    rw [← Nat.mul_assoc]
    exact Nat.mul_lt_mul_right positive
  have right : b * k < 2 * (a % b * k) ↔ b < 2 * (a % b) := by
    rw [← Nat.mul_assoc]
    exact Nat.mul_lt_mul_right positive
  unfold roundHalfEven
  simp only [Nat.mul_div_mul_right a b positive,rest,left,right]

theorem roundHalfEven_exact (positive : 0 < b) : roundHalfEven (a * b) b = a := by
  have quotient : a * b / b = a := Nat.mul_div_cancel a positive
  simp [roundHalfEven,quotient,positive]

theorem roundHalfEven_mono (below : a ≤ c) : roundHalfEven a b ≤ roundHalfEven c b := by
  rcases Nat.lt_or_eq_of_le (Nat.div_le_div_right below : a / b ≤ c / b) with apart | together
  · calc roundHalfEven a b ≤ a / b + 1 := Binary64.roundHalfEven_le a b
      _ ≤ c / b := apart
      _ ≤ roundHalfEven c b := le_roundHalfEven c b
  · have rests : a % b ≤ c % b := by
      have first := Nat.div_add_mod a b
      have second := Nat.div_add_mod c b
      rw [together] at first
      omega
    unfold roundHalfEven
    dsimp only
    rw [together]
    split_ifs <;> omega

namespace Binary64

theorem pow_two_pos (k : Nat) : 0 < Nat.pow 2 k := Nat.pow_pos (by decide)

theorem roundUnits_mul (positive : 0 < k) : roundUnits (a * k) (b * k) = roundUnits a b := by
  unfold roundUnits
  dsimp only
  rw [Nat.mul_div_mul_right a b positive,Nat.mul_right_comm b k,roundHalfEven_mul positive]

theorem nearest_congr (same : roundUnits a b = roundUnits c d) : nearest negative a b = nearest negative c d := by
  unfold nearest
  simp only [same]

/-- Equal quotients are rounded to the same number. -/
theorem nearest_cross (positiveB : 0 < b) (positiveD : 0 < d) (cross : a * d = c * b) :
    nearest negative a b = nearest negative c d := by
  apply nearest_congr
  calc roundUnits a b = roundUnits (a * d) (b * d) := (roundUnits_mul positiveD).symm
    _ = roundUnits (c * b) (d * b) := by rw [cross,Nat.mul_comm b d]
    _ = roundUnits c d := roundUnits_mul positiveB

theorem roundUnits_exact (representable : Representable units) (positive : 0 < b) : roundUnits (units * b) b = units := by
  obtain ⟨q,same⟩ := representable.2
  have spare := pow_two_pos (units.log2 - 52)
  unfold roundUnits
  dsimp only
  rw [Nat.mul_div_cancel units positive]
  generalize Nat.pow 2 (units.log2 - 52) = spacing at same spare ⊢
  have counted : units * b = q * (b * spacing) := by rw [same]; ring
  rw [counted,roundHalfEven_exact (Nat.mul_pos positive spare),Nat.mul_comm,← same]

theorem nearest_exact (representable : Representable units) (positive : 0 < b) :
    nearest negative (units * b) b = .finite negative units representable := by
  have exact := roundUnits_exact representable positive
  unfold nearest
  rw [dif_pos (exact.symm ▸ representable.1)]
  simp only [exact]

theorem nearest_eq_finite_iff {sign : Bool} {representable : Representable units} :
    nearest negative a b = .finite sign units representable ↔ sign = negative ∧ roundUnits a b = units := by
  unfold nearest
  split
  next small =>
    constructor
    · intro same
      cases same
      exact ⟨rfl,rfl⟩
    · rintro ⟨rfl,rfl⟩
      rfl
  next large =>
    constructor
    · intro same
      cases same
    · rintro ⟨_,rfl⟩
      exact absurd representable.1 large

theorem nearest_zero (positive : 0 < b) :
    nearest negative 0 b = .finite negative 0 ⟨overflow_pos,Nat.dvd_zero _⟩ := by
  have exact := @nearest_exact b 0 negative ⟨overflow_pos,Nat.dvd_zero _⟩ positive
  rwa [Nat.zero_mul] at exact

theorem log2_mono (below : a ≤ c) : a.log2 ≤ c.log2 := by
  rcases Nat.eq_zero_or_pos a with rfl | positive
  · exact Nat.zero_le _
  · exact (Nat.le_log2 (by omega)).mpr (Nat.le_trans (Nat.log2_self_le (by omega)) below)

theorem roundUnits_mono (below : a ≤ c) : roundUnits a b ≤ roundUnits c b := by
  have quotients : a / b ≤ c / b := Nat.div_le_div_right below
  unfold roundUnits
  dsimp only
  rcases Nat.lt_or_eq_of_le (Nat.sub_le_sub_right (log2_mono quotients) 52) with finer | same
  · -- The spacing of the larger number is wider, and a power of two lies between the two.
    have large : Nat.pow 2 (c / b).log2 ≤ c / b := Nat.log2_self_le (by intro zero; simp [zero] at finer)
    generalize spareA : (a / b).log2 - 52 = s at finer
    generalize spareC : (c / b).log2 - 52 = u at finer
    have wide : (c / b).log2 = 52 + u := by omega
    have bound : Nat.pow 2 52 ≤ c / (b * Nat.pow 2 u) := by
      rw [← Nat.div_div_eq_div_mul,Nat.le_div_iff_mul_le (pow_two_pos u)]
      have split : Nat.pow 2 52 * Nat.pow 2 u = Nat.pow 2 (52 + u) := (Nat.pow_add 2 52 u).symm
      rw [split,← wide]
      exact large
    calc roundHalfEven a (b * Nat.pow 2 s) * Nat.pow 2 s ≤ Nat.pow 2 53 * Nat.pow 2 s :=
          Nat.mul_le_mul_right _ (spareA ▸ significand_le a b)
      _ = Nat.pow 2 52 * Nat.pow 2 (s + 1) := by simp only [Nat.pow_eq]; ring
      _ ≤ Nat.pow 2 52 * Nat.pow 2 u := Nat.mul_le_mul_left _ (Nat.pow_le_pow_right (by decide) finer)
      _ ≤ roundHalfEven c (b * Nat.pow 2 u) * Nat.pow 2 u :=
          Nat.mul_le_mul_right _ (Nat.le_trans bound (le_roundHalfEven _ _))
  · rw [same]
    exact Nat.mul_le_mul_right _ (roundHalfEven_mono below)

theorem representable_scaled (small : n < Nat.pow 2 53) (scale : Nat.pow 2 (53 + k) ≤ overflow) :
    Representable (n * Nat.pow 2 k) := by
  rcases Nat.eq_zero_or_pos n with rfl | positive
  · rw [Nat.zero_mul]
    exact ⟨overflow_pos,Nat.dvd_zero _⟩
  have bits : n.log2 < 53 := (Nat.log2_lt (by omega)).mpr small
  constructor
  · calc n * Nat.pow 2 k < Nat.pow 2 53 * Nat.pow 2 k := Nat.mul_lt_mul_of_pos_right small (pow_two_pos k)
      _ = Nat.pow 2 (53 + k) := (Nat.pow_add 2 53 k).symm
      _ ≤ overflow := scale
  · rw [log2_mul_pow (by omega)]
    exact Nat.dvd_trans (Nat.pow_dvd_pow 2 (by omega)) (Nat.dvd_mul_left _ _)

theorem one_pos : 0 < one := by decide +kernel

end Binary64
end TreeConsole
