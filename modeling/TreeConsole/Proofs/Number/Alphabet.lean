import TreeConsole.Proofs.Number.Notation

/-! The characters of numbers.
A text that is read as a number has letters, digits, signs and a point in it, and nothing else.
-/
namespace TreeConsole
variable {cs : List Char} {c : Char} {x : Binary64} {d : Decimal}

namespace Number

/-- A character that the text of a number can have. -/
def isSymbol (c : Char) : Bool := c.isAlphanum || c == '+' || c == '-' || c == '.'

theorem isSymbol_of_isDigit (digit : c.isDigit = true) : isSymbol c = true := by simp [isSymbol,Char.isAlphanum,digit]

theorem mem_takeSign (member : c ∈ cs) : isSymbol c = true ∨ c ∈ (takeSign cs).2 := by
  unfold takeSign
  split
  · rcases List.mem_cons.mp member with rfl | behind
    · exact .inl rfl
    · exact .inr behind
  · rcases List.mem_cons.mp member with rfl | behind
    · exact .inl rfl
    · exact .inr behind
  · exact .inr member

theorem isSymbol_of_readInt? {i : Int} (found : readInt? cs = some i) (member : c ∈ cs) : isSymbol c = true := by
  rcases mem_takeSign member with symbol | inside
  · exact symbol
  · have unsigned : readInt? cs = (readNat? (takeSign cs).2).map fun n => if (takeSign cs).1 then -(n : Int) else n := rfl
    rw [unsigned] at found
    obtain ⟨n,read,_⟩ := Option.map_eq_some_iff.mp found
    unfold readNat? at read
    split at read
    next digits => exact isSymbol_of_isDigit (List.all_eq_true.mp digits.2 c inside)
    next => cases read

end Number

namespace Decimal
open Number

theorem isSymbol_of_readExponent? {exponent : Int} (found : readExponent? cs = some exponent) (member : c ∈ cs) :
    isSymbol c = true := by
  unfold readExponent? at found
  split at found
  · cases member
  · rcases List.mem_cons.mp member with rfl | behind
    · rfl
    · exact isSymbol_of_readInt? found behind
  · rcases List.mem_cons.mp member with rfl | behind
    · rfl
    · exact isSymbol_of_readInt? found behind
  · cases found

theorem mem_takeDigits (member : c ∈ cs) : isSymbol c = true ∨ c ∈ (takeDigits cs).2 := by
  rw [takeDigits,List.span_eq_takeWhile_dropWhile]
  rw [← List.takeWhile_append_dropWhile (p := Char.isDigit) (l := cs)] at member
  rcases List.mem_append.mp member with digit | behind
  · exact .inl (isSymbol_of_isDigit (List.mem_takeWhile_imp digit))
  · exact .inr behind

theorem isSymbol_of_read? (found : read? cs = some d) (member : c ∈ cs) : isSymbol c = true := by
  rcases mem_takeSign member with symbol | unsigned
  · exact symbol
  rcases mem_takeDigits unsigned with symbol | behind
  · exact symbol
  unfold read? at found
  dsimp only at found
  generalize (takeDigits (takeSign cs).2).2 = rest at found behind
  -- What stands behind the digits is a fraction with an exponent, or an exponent alone.
  split at found
  next more =>
    rcases List.mem_cons.mp behind with rfl | fraction
    · rfl
    rcases mem_takeDigits fraction with symbol | last
    · exact symbol
    split at found
    · cases found
    · obtain ⟨exponent,read,_⟩ := Option.map_eq_some_iff.mp found
      exact isSymbol_of_readExponent? read last
  next =>
    split at found
    · cases found
    · obtain ⟨exponent,read,_⟩ := Option.map_eq_some_iff.mp found
      exact isSymbol_of_readExponent? read behind

end Decimal

namespace Binary64
open Number

theorem isAlpha_of_toLower (letter : c.toLower.isAlpha = true) : c.isAlpha = true := by
  unfold Char.toLower at letter
  split at letter
  next upper =>
    have isUpper : c.isUpper = true := decide_eq_true upper
    have isAlpha : c.isAlpha = (c.isUpper || c.isLower) := rfl
    rw [isAlpha,isUpper,Bool.true_or]
  next => exact letter

theorem isSymbol_of_readName? (found : readName? cs = some x) (member : c ∈ cs) : isSymbol c = true := by
  rcases mem_takeSign member with symbol | inside
  · exact symbol
  have letter (name : String) (letters : name.toList.all Char.isAlpha = true)
      (same : String.ofList ((takeSign cs).2.map Char.toLower) = name) : isSymbol c = true := by
    have kept : c.toLower ∈ name.toList := by
      rw [← same,String.toList_ofList]
      exact List.mem_map_of_mem inside
    have alpha := isAlpha_of_toLower (List.all_eq_true.mp letters _ kept)
    simp [isSymbol,Char.isAlphanum,alpha]
  unfold readName? at found
  dsimp only at found
  split at found
  next same => exact letter "inf" (by decide) same
  next same => exact letter "infinity" (by decide) same
  next same => exact letter "nan" (by decide) same
  next => cases found

/-- No other character stands in the text of a number. -/
theorem isSymbol_of_readFinite? (found : Value.readFinite? cs = some x) (member : c ∈ cs) : isSymbol c = true := by
  have read : Binary64.read? cs = some x := (Option.filter_eq_some_iff.mp found).1
  unfold Binary64.read? at read
  cases named : readName? cs with
  | some y => exact isSymbol_of_readName? named member
  | none =>
    rw [named,Option.none_or] at read
    obtain ⟨d,decimal,_⟩ := Option.map_eq_some_iff.mp read
    exact Decimal.isSymbol_of_read? decimal member

end Binary64
end TreeConsole
