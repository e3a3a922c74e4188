/-! Decimal digits of whole numbers.
Digits are the ten ASCII digits. A whole number is read from at least one digit, an integer may carry one
sign; leading zeros are allowed and nothing else is. Words of 64 bits are refused when out of range.
-/
namespace TreeConsole.Number

def digits (n : Nat) : List Char := Nat.toDigits 10 n

def ofDigits (cs : List Char) : Nat := Nat.ofDigitChars 10 cs 0

def readNat? (cs : List Char) : Option Nat :=
  if cs ≠ [] ∧ cs.all Char.isDigit then some (ofDigits cs) else none

/-- Takes an optional sign off a text; the flag says whether it is a minus. -/
def takeSign : List Char → Bool × List Char
  | '-' :: rest => (true,rest)
  | '+' :: rest => (false,rest)
  | cs => (false,cs)

def readInt? (cs : List Char) : Option Int :=
  let (negative,rest) := takeSign cs
  (readNat? rest).map fun n => if negative then -(n : Int) else n

def fits (i : Int) : Prop := Int64.minValue.toInt ≤ i ∧ i ≤ Int64.maxValue.toInt

instance (i : Int) : Decidable (fits i) := inferInstanceAs (Decidable (_ ∧ _))

def readInt64? (cs : List Char) : Option Int64 :=
  (readInt? cs).bind fun i => if fits i then some (Int64.ofInt i) else none

def intText (i : Int) : List Char := if i < 0 then '-' :: digits i.natAbs else digits i.natAbs

theorem isDigit_of_mem_digits {n : Nat} {c : Char} (member : c ∈ digits n) : c.isDigit = true :=
  Nat.isDigit_of_mem_toDigits (by decide) (by decide) member

theorem digits_ne_nil (n : Nat) : digits n ≠ [] := Nat.toDigits_ne_nil

theorem readNat?_digits (n : Nat) : readNat? (digits n) = some n := by
  have isDigits : (digits n).all Char.isDigit = true := List.all_eq_true.mpr fun _ => isDigit_of_mem_digits
  have value : ofDigits (digits n) = n := Nat.ofDigitChars_ten_toDigits
  simp [readNat?,isDigits,value,digits_ne_nil]

theorem takeSign_digits (n : Nat) : takeSign (digits n) = (false,digits n) := by
  obtain ⟨first,more,same⟩ := List.exists_cons_of_ne_nil (digits_ne_nil n)
  have digit : first.isDigit = true := isDigit_of_mem_digits (n := n) (by simp [same])
  rw [same]
  unfold takeSign
  split
  next starts => cases starts; cases digit
  next starts => cases starts; cases digit
  next => rfl

theorem readInt?_intText (i : Int) : readInt? (intText i) = some i := by
  by_cases negative : i < 0
  · have signed : takeSign (intText i) = (true,digits i.natAbs) := by rw [intText,if_pos negative]; rfl
    have read : readInt? (intText i) = some (-(i.natAbs : Int)) := by simp [readInt?,signed,readNat?_digits]
    have value : -(i.natAbs : Int) = i := by omega
    rw [read,value]
  · have unsigned : takeSign (intText i) = (false,digits i.natAbs) := by rw [intText,if_neg negative,takeSign_digits]
    have read : readInt? (intText i) = some (i.natAbs : Int) := by simp [readInt?,unsigned,readNat?_digits]
    have value : (i.natAbs : Int) = i := by omega
    rw [read,value]

/-- Every word of 64 bits is read back from its own text. -/
theorem readInt64?_intText (i : Int64) : readInt64? (intText i.toInt) = some i := by
  have low := Int64.le_iff_toInt_le.mp (Int64.minValue_le i)
  have high := Int64.le_iff_toInt_le.mp (Int64.le_maxValue i)
  have inside : fits i.toInt := ⟨low,high⟩
  rw [readInt64?,readInt?_intText,Option.bind_some,if_pos inside,Int64.ofInt_toInt]

end TreeConsole.Number
