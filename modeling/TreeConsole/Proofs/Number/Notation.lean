import TreeConsole.Number.Notation
import TreeConsole.Proofs.Number.Decimal
import TreeConsole.Proofs.Text.Pieces
import TreeConsole.Value.Literal
import Mathlib.Data.List.TakeDrop
import Mathlib.Data.List.TakeWhile

/-! Plain text of numbers, read back.
The plain text of a finite number is digits with at most one point and sign, and reading it gives the number again.
-/
namespace TreeConsole
variable {negative : Bool} {units : Nat} {ds whole fraction rest : List Char} {exponent : Int} {c : Char}

namespace Number

/-- What a decimal is written with. -/
def isNumeral (c : Char) : Bool := c.isDigit || c == '-' || c == '.'

theorem isNumeral_of_isDigit (digit : c.isDigit = true) : isNumeral c = true := by simp [isNumeral,digit]

theorem toNat_of_isNumeral (numeral : isNumeral c = true) : 45 ≤ c.toNat ∧ c.toNat ≤ 57 := by
  simp only [isNumeral,Char.isDigit,Bool.or_eq_true,Bool.and_eq_true,decide_eq_true_eq,beq_iff_eq,
    UInt32.le_iff_toNat_le,ge_iff_le] at numeral
  rcases numeral with (⟨low,high⟩ | rfl) | rfl
  · have first : '0'.val.toNat = 48 := rfl
    have last : '9'.val.toNat = 57 := rfl
    have value : c.toNat = c.val.toNat := rfl
    omega
  · decide
  · decide

theorem isBlank_of_isNumeral (numeral : isNumeral c = true) : Text.isBlank c = false := by
  have range := toNat_of_isNumeral numeral
  simp [Text.isBlank,Text.blankRanges]
  omega

theorem ofDigits_zeros (ds : List Char) (k : Nat) :
    ofDigits (ds ++ NumberStyle.zeros k) = ofDigits ds * Nat.pow 10 k := by
  rw [ofDigits,NumberStyle.zeros,Nat.ofDigitChars_append,Nat.ofDigitChars_replicate_zero,Nat.mul_comm]
  rfl

theorem ofDigits_zeros_append (ds : List Char) (k : Nat) : ofDigits (NumberStyle.zeros k ++ ds) = ofDigits ds := by
  rw [ofDigits,NumberStyle.zeros,Nat.ofDigitChars_append,Nat.ofDigitChars_replicate_zero,Nat.mul_zero]
  rfl

theorem isDigit_of_mem_zeros {k : Nat} (member : c ∈ NumberStyle.zeros k) : c.isDigit = true := by
  rw [List.eq_of_mem_replicate member]
  rfl

theorem takeSign_signText (digit : c.isDigit = true) :
    takeSign (Binary64.signText negative ++ c :: rest) = (negative,c :: rest) := by
  cases negative with
  | true => rfl
  | false =>
    simp only [Binary64.signText,Bool.false_eq_true,if_false,List.nil_append]
    unfold takeSign
    split
    next starts => cases starts; cases digit
    next starts => cases starts; cases digit
    next => rfl

end Number

namespace NumberStyle
open Number

theorem eq_append_zeros (cs : List Char) : ∃ k, cs = (cs.reverse.dropWhile (· == '0')).reverse ++ zeros k := by
  have zeroed : cs.reverse.takeWhile (· == '0') = zeros (cs.reverse.takeWhile (· == '0')).length :=
    List.eq_replicate_iff.mpr ⟨rfl,fun c member => by simpa using List.mem_takeWhile_imp member⟩
  have parts := congrArg List.reverse (@List.takeWhile_append_dropWhile _ (· == '0') cs.reverse)
  rw [List.reverse_append,List.reverse_reverse,zeroed,zeros,List.reverse_replicate] at parts
  exact ⟨_,parts.symm⟩

/-- Leaving out the zeros at the end keeps the digits before them and the value. -/
theorem significant_eq {d : Decimal} (nonzero : d.coefficient ≠ 0) : ∃ k,
    digits d.coefficient = (significant d).1 ++ zeros k ∧ (significant d).2 = d.exponent + k ∧ (significant d).1 ≠ [] := by
  obtain ⟨k,parts⟩ := eq_append_zeros (digits d.coefficient)
  have some : (((digits d.coefficient).reverse.dropWhile (· == '0')).reverse).isEmpty = false := by
    apply Bool.eq_false_of_not_eq_true
    intro empty
    rw [List.isEmpty_iff.mp empty] at parts
    have value : ofDigits (digits d.coefficient) = d.coefficient := Nat.ofDigitChars_ten_toDigits
    rw [parts,ofDigits_zeros] at value
    exact nonzero (value.symm.trans (Nat.zero_mul _))
  refine ⟨k,?_,?_,?_⟩
  · rw [significant,if_neg (by simp [some])]
    exact parts
  · rw [significant,if_neg (by simp [some])]
    have count := congrArg List.length parts
    rw [List.length_append,zeros,List.length_replicate] at count
    dsimp only
    omega
  · rw [significant,if_neg (by simp [some])]
    exact List.isEmpty_eq_false_iff.mp some

theorem text_of_free {style : NumberStyle} (free : style.positional = none) (nonzero : units ≠ 0) :
    style.text units = style.positionalText (significant (Shortest.ofUnits style.tie units)).1
      (significant (Shortest.ofUnits style.tie units)).2 := by
  rw [text,if_neg nonzero]
  generalize significant (Shortest.ofUnits style.tie units) = kept
  obtain ⟨ds,exponent⟩ := kept
  simp only [free]

/-- The digits in the plain text of a magnitude, the place of their point and what they denote. -/
theorem exists_positional (representable : Binary64.Representable units) : ∃ ds exponent,
    plain.text units = positionalText plain ds exponent ∧ ds ≠ [] ∧ (∀ c ∈ ds, c.isDigit = true) ∧
      ∀ negative, Decimal.toBinary64 ⟨negative,ofDigits ds,exponent⟩ = .finite negative units representable := by
  by_cases zero : units = 0
  · subst zero
    exact ⟨['0'],0,rfl,List.cons_ne_nil _ _,by simp,fun _ => Decimal.toBinary64_zero⟩
  have denoted := Shortest.ofUnits_denotes plain.tie representable zero
  have written := @text_of_free units plain rfl zero
  generalize Shortest.ofUnits plain.tie units = d at denoted written
  have nonzero : d.coefficient ≠ 0 := by
    intro none
    have zeroed := denoted false
    rw [none,Decimal.toBinary64_zero] at zeroed
    cases zeroed
    exact zero rfl
  obtain ⟨k,parts,shifted,some⟩ := significant_eq nonzero
  refine ⟨_,_,written,some,?_,?_⟩
  · intro c member
    exact isDigit_of_mem_digits (parts ▸ List.mem_append_left _ member)
  · intro negative
    have value : ofDigits (digits d.coefficient) = d.coefficient := Nat.ofDigitChars_ten_toDigits
    rw [parts,ofDigits_zeros] at value
    rw [shifted,← Decimal.toBinary64_shift,value]
    exact denoted negative

end NumberStyle

namespace Decimal
open Number Binary64

theorem takeDigits_append (digits : ∀ c ∈ ds, c.isDigit = true) (stop : ∀ c ∈ rest.head?, c.isDigit = false) :
    takeDigits (ds ++ rest) = (ds,rest) := Text.span_append digits stop

theorem read?_whole (digits : ∀ c ∈ whole, c.isDigit = true) (some : whole ≠ []) :
    read? (signText negative ++ whole) = .some ⟨negative,ofDigits whole,0⟩ := by
  obtain ⟨first,more,rfl⟩ := List.exists_cons_of_ne_nil some
  have taken : takeDigits (first :: more) = (first :: more,[]) := by
    simpa using @takeDigits_append (first :: more) [] digits (by simp)
  simp [read?,takeSign_signText (digits first (by simp)),taken,readExponent?]

theorem read?_point (digits : ∀ c ∈ whole, c.isDigit = true) (some : whole ≠ [])
    (places : ∀ c ∈ fraction, c.isDigit = true) : read? (signText negative ++ whole ++ '.' :: fraction) =
      .some ⟨negative,ofDigits (whole ++ fraction),-(fraction.length : Int)⟩ := by
  obtain ⟨first,more,rfl⟩ := List.exists_cons_of_ne_nil some
  have before : takeDigits (first :: (more ++ '.' :: fraction)) = (first :: more,'.' :: fraction) := by
    simpa using @takeDigits_append (first :: more) ('.' :: fraction) digits (by simp)
  have after : takeDigits fraction = (fraction,[]) := by simpa using @takeDigits_append fraction [] places (by simp)
  simp [read?,takeSign_signText (digits first (by simp)),before,after,readExponent?]

theorem read?_positional (digits : ∀ c ∈ ds, c.isDigit = true) (some : ds ≠ []) (exponent : Int) : ∃ d,
    read? (signText negative ++ NumberStyle.plain.positionalText ds exponent) = .some d ∧
      d.toBinary64 = toBinary64 ⟨negative,ofDigits ds,exponent⟩ := by
  unfold NumberStyle.positionalText
  split
  next whole =>
    have padded : ∀ c ∈ ds ++ NumberStyle.zeros exponent.toNat, c.isDigit = true := by
      intro c member
      exact (List.mem_append.mp member).elim (digits c) isDigit_of_mem_zeros
    refine ⟨⟨negative,ofDigits (ds ++ NumberStyle.zeros exponent.toNat),0⟩,?_,?_⟩
    · have bare : NumberStyle.plain.keepsPoint = false := rfl
      rw [bare,if_neg Bool.false_ne_true,List.append_nil,read?_whole padded (by simp [some])]
    · have total : (0 : Int) + exponent.toNat = exponent := by omega
      rw [ofDigits_zeros,toBinary64_shift,total]
  next broken =>
    dsimp only
    split
    next inside =>
      have before : ∀ c ∈ ds.take (ds.length - (-exponent).toNat), c.isDigit = true :=
        fun c member => digits c (List.mem_of_mem_take member)
      have after : ∀ c ∈ ds.drop (ds.length - (-exponent).toNat), c.isDigit = true :=
        fun c member => digits c (List.mem_of_mem_drop member)
      have nonempty : ds.take (ds.length - (-exponent).toNat) ≠ [] := by
        rw [← List.length_pos_iff,List.length_take]
        omega
      refine ⟨_,by rw [← List.append_assoc]; exact read?_point before nonempty after,?_⟩
      have places : -((ds.drop (ds.length - (-exponent).toNat)).length : Int) = exponent := by
        rw [List.length_drop]
        omega
      rw [List.take_append_drop,places]
    next beyond =>
      have after : ∀ c ∈ NumberStyle.zeros ((-exponent).toNat - ds.length) ++ ds, c.isDigit = true := by
        intro c member
        exact (List.mem_append.mp member).elim isDigit_of_mem_zeros (digits c)
      have joined : '0' :: '.' :: NumberStyle.zeros ((-exponent).toNat - ds.length) ++ ds =
          ['0'] ++ '.' :: (NumberStyle.zeros ((-exponent).toNat - ds.length) ++ ds) := rfl
      rw [joined,← List.append_assoc]
      refine ⟨_,read?_point (by simp) (List.cons_ne_nil _ _) after,?_⟩
      have places : -((NumberStyle.zeros ((-exponent).toNat - ds.length) ++ ds).length : Int) = exponent := by
        rw [List.length_append,NumberStyle.zeros,List.length_replicate]
        omega
      have zero : ofDigits ('0' :: (NumberStyle.zeros ((-exponent).toNat - ds.length) ++ ds)) = ofDigits ds :=
        ofDigits_zeros_append ds _
      rw [List.singleton_append,zero,places]

end Decimal

namespace NumberStyle
open Number

theorem isNumeral_of_mem_positional (digits : ∀ c ∈ ds, c.isDigit = true)
    (member : c ∈ plain.positionalText ds exponent) : isNumeral c = true := by
  unfold positionalText at member
  split at member
  · have bare : plain.keepsPoint = false := rfl
    rw [bare,if_neg Bool.false_ne_true,List.append_nil,List.mem_append] at member
    exact member.elim (fun inside => isNumeral_of_isDigit (digits c inside)) fun inside => isNumeral_of_isDigit (isDigit_of_mem_zeros inside)
  · dsimp only at member
    split at member
    · rw [List.mem_append,List.mem_cons] at member
      rcases member with before | rfl | after
      · exact isNumeral_of_isDigit (digits c (List.mem_of_mem_take before))
      · rfl
      · exact isNumeral_of_isDigit (digits c (List.mem_of_mem_drop after))
    · simp only [List.cons_append,List.mem_cons,List.mem_append] at member
      rcases member with rfl | rfl | padding | inside
      · rfl
      · rfl
      · exact isNumeral_of_isDigit (isDigit_of_mem_zeros padding)
      · exact isNumeral_of_isDigit (digits c inside)

theorem positionalText_head (digits : ∀ c ∈ ds, c.isDigit = true) (some : ds ≠ []) :
    ∃ first more, plain.positionalText ds exponent = first :: more ∧ first.isDigit = true := by
  obtain ⟨first,more,rfl⟩ := List.exists_cons_of_ne_nil some
  have digit := digits first List.mem_cons_self
  unfold positionalText
  split
  · exact ⟨first,_,rfl,digit⟩
  · dsimp only
    split
    next inside =>
      obtain ⟨kept,count⟩ := Nat.exists_eq_add_one_of_ne_zero
        (Nat.sub_ne_zero_of_lt inside : (first :: more).length - (-exponent).toNat ≠ 0)
      rw [count]
      exact ⟨first,_,rfl,digit⟩
    next => exact ⟨'0',_,rfl,rfl⟩

end NumberStyle

namespace Binary64
open Number
variable {x : Binary64}

theorem toLower_of_isDigit (digit : c.isDigit = true) : c.toLower = c := by
  simp only [Char.isDigit,Bool.and_eq_true,decide_eq_true_eq] at digit
  have small : ¬ (c.val ≥ 'A'.val ∧ c.val ≤ 'Z'.val) := fun upper =>
    absurd (UInt32.le_trans upper.1 digit.2) (by decide)
  exact dif_neg small

theorem readName?_digit (digit : c.isDigit = true) : readName? (signText negative ++ c :: rest) = none := by
  rw [readName?,takeSign_signText digit]
  dsimp only
  have starts : (String.ofList ((c :: rest).map Char.toLower)).toList.head? = some c := by
    rw [String.toList_ofList,List.map_cons,toLower_of_isDigit digit,List.head?_cons]
  generalize String.ofList ((c :: rest).map Char.toLower) = name at starts
  -- No name of a number starts with a digit.
  split
  · cases starts
    cases digit
  · cases starts
    cases digit
  · cases starts
    cases digit
  · rfl

/-- A finite number is read back from its plain text. -/
theorem read?_plainText (finite : x.isFinite = true) : read? x.plainText = some x := by
  cases x with
  | finite negative units representable =>
    obtain ⟨ds,exponent,written,some,digits,denoted⟩ := NumberStyle.exists_positional representable
    obtain ⟨first,more,starts,digit⟩ := @NumberStyle.positionalText_head ds exponent digits some
    obtain ⟨d,reads,same⟩ := @Decimal.read?_positional negative ds digits some exponent
    have unnamed : readName? (signText negative ++ NumberStyle.plain.positionalText ds exponent) = none := by
      rw [starts]
      exact readName?_digit digit
    rw [plainText,written,read?,unnamed,reads,Option.none_or,Option.map_some,same,denoted]
  | _ => cases finite

theorem isNumeral_of_mem_plainText (finite : x.isFinite = true) (member : c ∈ x.plainText) : isNumeral c = true := by
  cases x with
  | finite negative units representable =>
    obtain ⟨ds,exponent,written,_,digits,_⟩ := NumberStyle.exists_positional representable
    rw [plainText,written,List.mem_append] at member
    rcases member with sign | inside
    · cases negative with
      | true => rw [List.mem_singleton.mp sign]; rfl
      | false => cases sign
    · exact NumberStyle.isNumeral_of_mem_positional digits inside
  | _ => cases finite

/-! Words of 64 bits -/

variable {i : Int}

theorem signText_digits (i : Int) : signText (i < 0) ++ digits i.natAbs = intText i := by
  unfold intText
  split
  next negative => rw [decide_eq_true negative]; rfl
  next positive => rw [decide_eq_false positive]; rfl

theorem isNumeral_of_mem_intText (member : c ∈ intText i) : isNumeral c = true := by
  unfold intText at member
  split at member
  · rcases List.mem_cons.mp member with rfl | digit
    · rfl
    · exact isNumeral_of_isDigit (isDigit_of_mem_digits digit)
  · exact isNumeral_of_isDigit (isDigit_of_mem_digits member)

theorem isFinite_nearest {n : Nat} (representable : Representable units) (below : n ≤ units) :
    (nearest negative n 1).isFinite = true := by
  have exact := roundUnits_exact representable Nat.one_pos
  rw [Nat.mul_one] at exact
  have small : roundUnits n 1 < overflow := by
    calc roundUnits n 1 ≤ roundUnits units 1 := roundUnits_mono below
      _ = units := exact
      _ < overflow := representable.1
  rw [nearest,dif_pos small]
  rfl

theorem isFinite_ofInt (small : i.natAbs ≤ Nat.pow 2 63) : (ofInt i).isFinite = true := by
  have representable : Representable (Nat.pow 2 63 * one) := ⟨by decide +kernel,by decide +kernel⟩
  exact isFinite_nearest representable (Nat.mul_le_mul_right one small)

/-- The decimal text of an integer denotes the number nearest to it. -/
theorem readFinite?_intText (small : i.natAbs ≤ Nat.pow 2 63) : Value.readFinite? (intText i) = some (ofInt i) := by
  obtain ⟨first,more,starts⟩ := List.exists_cons_of_ne_nil (digits_ne_nil i.natAbs)
  have digit : first.isDigit = true := isDigit_of_mem_digits (starts ▸ List.mem_cons_self)
  have unnamed : readName? (intText i) = none := by
    rw [← signText_digits,starts]
    exact readName?_digit digit
  have decimal : Decimal.read? (intText i) = some ⟨decide (i < 0),i.natAbs,0⟩ := by
    have value : ofDigits (digits i.natAbs) = i.natAbs := Nat.ofDigitChars_ten_toDigits
    rw [← signText_digits,Decimal.read?_whole (fun _ => isDigit_of_mem_digits) (digits_ne_nil _),value]
  have denoted : Decimal.toBinary64 ⟨decide (i < 0),i.natAbs,0⟩ = ofInt i := by
    rw [ofInt]
    by_cases zero : i.natAbs = 0
    · rw [Decimal.toBinary64,if_pos (.inl zero),zero,Nat.zero_mul]
    have few : (digits i.natAbs).length ≤ 310 :=
      (length_digits_le_iff (by decide)).mpr (Nat.lt_of_le_of_lt small (by decide +kernel))
    have low : Decimal.smallestScale ≤ Decimal.scale ⟨decide (i < 0),i.natAbs,0⟩ := by
      simp only [Decimal.scale,Decimal.smallestScale]
      omega
    have high : Decimal.scale ⟨decide (i < 0),i.natAbs,0⟩ ≤ Decimal.largestScale := by
      simp only [Decimal.scale,Decimal.largestScale]
      omega
    have whole : Decimal.fraction ⟨decide (i < 0),i.natAbs,0⟩ = (i.natAbs * one,1) := by
      simp only [Decimal.fraction,Int.neg_zero,Int.toNat_zero,Nat.pow_eq,Nat.pow_zero,Nat.mul_one]
    rw [Decimal.toBinary64_medium zero low high,whole]
  have found : read? (intText i) = some (ofInt i) := by
    rw [read?,unnamed,Option.none_or,decimal,Option.map_some,denoted]
  exact Option.filter_eq_some_iff.mpr ⟨found,isFinite_ofInt small⟩

end Binary64
end TreeConsole
