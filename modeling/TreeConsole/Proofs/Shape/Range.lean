import TreeConsole.Proofs.Number.Alphabet
import TreeConsole.Proofs.Number.Order
import TreeConsole.Proofs.Shape.Descriptor
import TreeConsole.Shape.Coercion

/-! Declared ranges.
A shape that is written with a range accepts exactly the texts whose number lies in it, an integer, a floating-point
number or a length. Two kinds of ranges are not kept: the one from zero to zero, and one with a bound of 2^53 or more,
which lets in those integers that are rounded to the bound.
-/
namespace TreeConsole

/-- The number by which a range measures a text, in units. -/
def Kind.measure? (kind : Kind) (text : String) : Option Int :=
  match kind with
  | .int => (Number.readInt64? text.toList).map fun i => Binary64.whole i.toInt
  | .float => (Value.readFinite? text.toList).bind Binary64.position
  | .string => some (Binary64.whole text.length)
  | .bool | .choice => none

namespace Shape
open Binary64 Text
variable {shape : Shape} {kind : Kind} {isArray : Bool} {descriptor text : String} {choices : List String} {x : Binary64}
variable {lowText highText : List Char} {low high number : Int}

/-! Bounds as they are written -/

/-- The number that a bound is read as, in units. -/
def upperBound? (written : List Char) : Option Int := (Value.readFinite? (trim written)).bind position

/-- A lower bound that is left out is zero. -/
def lowerBound? (written : List Char) : Option Int := if trim written = [] then some 0 else upperBound? written

theorem readFinite?_eq_none {cs : List Char} (member : ':' ∈ cs) : Value.readFinite? cs = none := by
  cases found : Value.readFinite? cs with
  | none => rfl
  | some x => exact absurd (isSymbol_of_readFinite? found member) (by decide)

/-- The bounds of a range are the texts on both sides of its only colon. -/
theorem bounds_of_readRange {min max : Binary64}
    (ok : readRange text kind (trim (lowText ++ ':' :: highText)) = .ok (min,max)) :
    kind.ranges = true ∧ lowerBound? lowText = min.position ∧ upperBound? highText = max.position := by
  have solid : isBlank ':' = false := by decide
  have nothing : Value.readFinite? [] = none := rfl
  have plain : ':' ∉ lowText := by
    intro member
    obtain ⟨first,second,rfl,absent⟩ := List.eq_append_cons_of_mem member
    -- The range is cut at the first colon, which leaves the second one in the upper bound.
    rw [List.append_assoc,List.cons_append] at ok
    obtain ⟨_,_,upper,_⟩ := (readRange_bounds absent).mp ok
    rw [trim_append_cons solid,readFinite?_eq_none (by simp)] at upper
    cases upper
  obtain ⟨ranges,lower,upper,_⟩ := (readRange_bounds plain).mp ok
  refine ⟨ranges,?_,by rw [upperBound?,upper,Option.bind_some]⟩
  rw [lowerBound?,upperBound?]
  rcases lower with ⟨opened,rfl⟩ | found
  · rw [if_pos opened]
    rfl
  · have closed : trim lowText ≠ [] := by
      intro opened
      rw [opened,nothing] at found
      cases found
    rw [if_neg closed,found,Option.bind_some]

theorem bounds_of_read (ok : read descriptor = .ok shape)
    (written : trim descriptor.toList = spelled kind (some (lowText ++ ':' :: highText)) isArray) :
    shape.kind = kind ∧ kind.ranges = true ∧ lowerBound? lowText = shape.min.position ∧
      upperBound? highText = shape.max.position := by
  rw [read_of_spelled written,ofRange] at ok
  split at ok
  next => cases ok
  next =>
    split at ok
    next blank =>
      have solid : isBlank ':' = false := by decide
      simp [trim_append_cons solid] at blank
    next =>
      cases bounds : readRange (trimmed descriptor) kind (trim (lowText ++ ':' :: highText)) with
      | error =>
        rw [bounds] at ok
        cases ok
      | ok range =>
        rw [bounds] at ok
        cases ok
        exact ⟨rfl,bounds_of_readRange bounds⟩

theorem exists_of_any {p : Shape → Prop} [DecidablePred p]
    (some : ((read descriptor).toOption.any fun shape => p shape) = true) : ∃ shape, read descriptor = .ok shape ∧ p shape := by
  cases found : read descriptor with
  | error => rw [found] at some; cases some
  | ok shape =>
    rw [found] at some
    exact ⟨shape,rfl,of_decide_eq_true some⟩

/-! Measuring a text -/

theorem isZero_iff {a : Int} (position : x.position = some a) : x.isZero = true ↔ a = 0 := by
  have origin : zero.position = some 0 := rfl
  rw [isZero,same,position,origin]
  exact beq_iff_eq

theorem hasRange_iff (lower : shape.min.position = some low) (upper : shape.max.position = some high) :
    shape.hasRange = true ↔ ¬ (low = 0 ∧ high = 0) := by
  rw [hasRange,Bool.not_eq_true',Bool.and_eq_false_iff,← Bool.not_eq_true,← Bool.not_eq_true,isZero_iff lower,
    isZero_iff upper,not_and_or]

theorem within_iff (lower : shape.min.position = some low) (upper : shape.max.position = some high)
    (ranged : shape.hasRange = true) (position : x.position = some number) :
    shape.within x = true ↔ low ≤ number ∧ number ≤ high := by
  rw [within,ranged,Bool.not_true,Bool.false_or,Bool.and_eq_true,le_iff lower position,le_iff position upper]

theorem coerce_int64Text_iff {i : Int64} (integral : shape.kind = .int) :
    shape.coerce choices (Value.int64Text i) = some (.int i) ↔ shape.within (ofInt i.toInt) = true := by
  simp [coerce,integral,Value.int64Text,Number.readInt64?_intText]

/-- A shape with a range accepts the texts whose number is in it after rounding. -/
theorem coerce_measured (lower : shape.min.position = some low) (upper : shape.max.position = some high)
    (ranged : shape.hasRange = true) (ranges : shape.kind.ranges = true) :
    (∃ v, shape.coerce choices text = some v) ↔
      ∃ number, shape.kind.measure? text = some number ∧ low ≤ rounded number ∧ rounded number ≤ high := by
  unfold coerce
  cases isKind : shape.kind with
  | int =>
    cases read : Number.readInt64? text.toList with
    | none => simp [Kind.measure?,read]
    | some i => simp [Kind.measure?,read,within_iff lower upper ranged (position_ofInt i.toInt)]
  | float =>
    cases read : Value.readFinite? text.toList with
    | none => simp [Kind.measure?,read]
    | some x =>
      have finite := isFinite_of_readFinite? read
      obtain ⟨number,position⟩ := exists_position finite
      have kept := rounded_of_finite finite position
      simp [Kind.measure?,read,within_iff lower upper ranged position,position,kept]
  | string => simp [Kind.measure?,within_iff lower upper ranged (position_ofNat text.length)]
  | bool => simp [isKind,Kind.ranges] at ranges
  | choice => simp [isKind,Kind.ranges] at ranges

/-! Ranges as they are written -/

/-- At most another number, or rounded to the same one; floating-point numbers are not rounded. -/
def Reaches (kind : Kind) (a b : Int) : Prop := a ≤ b ∨ kind ≠ .float ∧ Blurred a b

theorem exact_of_measure? (measured : kind.measure? text = some number) : Exact number := by
  cases kind with
  | int =>
    obtain ⟨i,_,rfl⟩ := Option.map_eq_some_iff.mp measured
    exact exact_whole i.toInt
  | float =>
    obtain ⟨x,read,position⟩ := Option.bind_eq_some_iff.mp measured
    exact exact_of_finite (isFinite_of_readFinite? read) position
  | string =>
    cases measured
    exact exact_whole text.length
  | bool => cases measured
  | choice => cases measured

theorem rounded_of_measure? (measured : Kind.measure? .float text = some number) : rounded number = number := by
  obtain ⟨x,read,position⟩ := Option.bind_eq_some_iff.mp measured
  exact rounded_of_finite (isFinite_of_readFinite? read) position

theorem reaches_iff {a b : Int} (first : Exact a) (second : Exact b)
    (fixed : kind = .float → rounded a = a ∧ rounded b = b) : Reaches kind a b ↔ rounded a ≤ rounded b := by
  by_cases float : kind = .float
  · obtain ⟨left,right⟩ := fixed float
    rw [left,right]
    exact or_iff_left fun blurred => blurred.1 float
  · rw [rounded_le_iff first second,Reaches]
    exact or_congr_right (and_iff_right float)

/-- Every accepted range but the one from zero to zero is enforced on all texts: the number of an accepted text is neither
below the lower bound nor above the upper one, as these are read, unless it is rounded to one of them. -/
theorem coerce_ranged (ok : read descriptor = .ok shape)
    (written : trim descriptor.toList = spelled kind (some (lowText ++ ':' :: highText)) isArray) :
    ∃ low high, lowerBound? lowText = some low ∧ upperBound? highText = some high ∧
      (¬ (low = 0 ∧ high = 0) → ∀ choices text, (∃ v, shape.coerce choices text = some v) ↔
        ∃ number, kind.measure? text = some number ∧ Reaches kind low number ∧ Reaches kind number high) := by
  have proper := Proper.of_read ok
  obtain ⟨rfl,ranges,lowerText,upperText⟩ := bounds_of_read ok written
  obtain ⟨low,lower⟩ := exists_position proper.finiteMin
  obtain ⟨high,upper⟩ := exists_position proper.finiteMax
  have lowFixed := rounded_of_finite proper.finiteMin lower
  have highFixed := rounded_of_finite proper.finiteMax upper
  refine ⟨low,high,lowerText.trans lower,upperText.trans upper,fun some choices text => ?_⟩
  rw [coerce_measured lower upper ((hasRange_iff lower upper).mpr some) ranges]
  refine exists_congr fun number => and_congr_right fun measured => ?_
  have exact := exact_of_measure? measured
  have fixed (float : shape.kind = .float) : rounded number = number := rounded_of_measure? (float ▸ measured)
  rw [reaches_iff (exact_of_finite proper.finiteMin lower) exact fun float => ⟨lowFixed,fixed float⟩,
    reaches_iff exact (exact_of_finite proper.finiteMax upper) fun float => ⟨fixed float,highFixed⟩,lowFixed,highFixed]

theorem coerce_ranged_floats : ∃ shape high, read " float( :2.5)..." = .ok shape ∧ upperBound? ['2','.','5'] = some high ∧
    ∀ choices text, (∃ v, shape.coerce choices text = some v) ↔
      ∃ number, Kind.measure? .float text = some number ∧ Reaches .float 0 number ∧ Reaches .float number high := by
  have accepted : ((read " float( :2.5)...").toOption.any fun shape => shape.isArray = true) = true := by decide +kernel
  obtain ⟨shape,ok,_⟩ := exists_of_any accepted
  obtain ⟨low,high,lower,upper,accepts⟩ := coerce_ranged ok
    (by decide : trim " float( :2.5)...".toList = spelled .float (some ([' '] ++ ':' :: ['2','.','5'])) true)
  have opened : lowerBound? [' '] = some 0 := by decide +kernel
  have positive : upperBound? ['2','.','5'] ≠ some 0 := by decide +kernel
  obtain rfl := Option.some_inj.mp (lower.symm.trans opened)
  exact ⟨shape,high,ok,upper,accepts fun zeros => positive (upper.trans (congrArg some zeros.2))⟩

/-- A range from zero to zero is taken for none. -/
theorem coerce_zero_range : ∃ shape, read "int(0:0)" = .ok shape ∧
    trim "int(0:0)".toList = spelled .int (some (['0'] ++ ':' :: ['0'])) false ∧ upperBound? ['0'] = some 0 ∧
      shape.coerce [] "5" = some (.int 5) ∧ Kind.measure? .int "5" = some (whole 5) ∧ ¬ whole 5 ≤ 0 := by
  have admitted : ((read "int(0:0)").toOption.any fun shape =>
      shape.kind = .int ∧ shape.within (ofInt (5 : Int64).toInt)) = true := by
    decide +kernel
  obtain ⟨shape,ok,integral,inside⟩ := exists_of_any admitted
  have written : Value.int64Text 5 = "5" := by decide
  refine ⟨shape,ok,by decide,by decide +kernel,?_,by decide +kernel,by decide +kernel⟩
  rw [← written,coerce_int64Text_iff integral]
  exact inside

/-! Ranges between words of 64 bits -/

theorem natAbs_toInt_le (i : Int64) : i.toInt.natAbs ≤ Nat.pow 2 63 := by
  have low := Int64.le_toInt i
  have high := Int64.toInt_lt i
  have size : Nat.pow 2 63 = 9223372036854775808 := by decide
  omega

theorem read_int_range {low high : Int64} (ordered : low ≤ high) :
    ∃ shape, read ("int(" ++ Value.int64Text low ++ ":" ++ Value.int64Text high ++ ")") = .ok shape ∧
      shape.kind = .int ∧ shape.min = ofInt low.toInt ∧ shape.max = ofInt high.toInt := by
  have text : "int(" ++ Value.int64Text low ++ ":" ++ Value.int64Text high ++ ")" =
      String.ofList (spelled .int (some (Number.intText low.toInt ++ ':' :: Number.intText high.toInt)) false) := by
    rw [← String.toList_inj]
    simp [spelled,body,Kind.name,Value.int64Text]
  have below : (ofInt low.toInt).le (ofInt high.toInt) = true :=
    (le_iff (position_ofInt _) (position_ofInt _)).mpr (rounded_mono (whole_le_iff.mpr (Int64.le_iff_toInt_le.mp ordered)))
  rw [text]
  refine ⟨_,read_of_numerals rfl (fun _ => isNumeral_of_mem_intText) (fun _ => isNumeral_of_mem_intText)
    (readFinite?_intText (natAbs_toInt_le low)) (readFinite?_intText (natAbs_toInt_le high)) below,?_⟩
  simp only [and_self]

/-- Between words of 64 bits a range accepts the words in it, and those that are rounded, from 2^53 on, to a bound. -/
theorem coerce_int_range (low high : Int64) (ordered : low ≤ high) (ranged : ¬ (low = 0 ∧ high = 0)) :
    ∃ shape, read ("int(" ++ Value.int64Text low ++ ":" ++ Value.int64Text high ++ ")") = .ok shape ∧
      ∀ choices i, shape.coerce choices (Value.int64Text i) = some (.int i) ↔
        (low ≤ i ∨ Blurred (whole low.toInt) (whole i.toInt)) ∧ (i ≤ high ∨ Blurred (whole i.toInt) (whole high.toInt)) := by
  obtain ⟨shape,ok,integral,min,max⟩ := read_int_range ordered
  refine ⟨shape,ok,fun choices i => ?_⟩
  have lower : shape.min.position = some (rounded (whole low.toInt)) := by rw [min,position_ofInt]
  have upper : shape.max.position = some (rounded (whole high.toInt)) := by rw [max,position_ofInt]
  have apart : ¬ (rounded (whole low.toInt) = 0 ∧ rounded (whole high.toInt) = 0) := by
    rw [rounded_whole_eq_zero_iff,rounded_whole_eq_zero_iff,← Int64.toInt_zero,Int64.toInt_inj,Int64.toInt_inj]
    exact ranged
  rw [coerce_int64Text_iff integral,within_iff lower upper ((hasRange_iff lower upper).mpr apart) (position_ofInt _),
    rounded_le_iff (exact_whole _) (exact_whole _),rounded_le_iff (exact_whole _) (exact_whole _),whole_le_iff,
    whole_le_iff,Int64.le_iff_toInt_le,Int64.le_iff_toInt_le]

theorem coerce_int_range_ten : ∃ shape, read "int(-5:10)" = .ok shape ∧ ∀ choices,
    shape.coerce choices "10" = some (.int 10) ∧ shape.coerce choices "11" ≠ some (.int 11) := by
  obtain ⟨shape,ok,accepts⟩ := coerce_int_range (-5) 10 (by decide) (by decide)
  have small (blurred : Blurred (whole 11) (whole 10)) : False := absurd blurred.le_natAbs (by decide)
  refine ⟨shape,ok,fun choices => ⟨(accepts choices 10).mpr ⟨.inl (by decide),.inl (by decide)⟩,fun accepted => ?_⟩⟩
  exact ((accepts choices 11).mp accepted).2.elim (by decide) small

/-- The first integer that is rounded is taken for the one below it. -/
theorem coerce_rounded_integer : ∃ shape, read "int(0:9007199254740992)" = .ok shape ∧
    shape.coerce [] "9007199254740993" = some (.int 9007199254740993) ∧
      ¬ (9007199254740993 : Int64) ≤ 9007199254740992 := by
  have admitted : ((read "int(0:9007199254740992)").toOption.any fun shape =>
      shape.kind = .int ∧ shape.within (ofInt (9007199254740993 : Int64).toInt)) = true := by
    decide +kernel
  obtain ⟨shape,ok,integral,inside⟩ := exists_of_any admitted
  have written : Value.int64Text 9007199254740993 = "9007199254740993" := by decide
  refine ⟨shape,ok,?_,by decide⟩
  rw [← written,coerce_int64Text_iff integral]
  exact inside

end Shape
end TreeConsole

