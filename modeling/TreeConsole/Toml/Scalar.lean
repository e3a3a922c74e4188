import TreeConsole.Number.Decimal
import TreeConsole.Toml.Lexeme

/-! Numbers, dates and times of TOML.
Digits may be parted by single underscores. Integers fit in 64 bits and have no leading zeros; floating-point
numbers have a digit on both sides of the point. Dates must exist in the calendar.
-/
namespace TreeConsole.Toml
open Reader

/-- Digits parted by single underscores, the underscores left out. -/
def groupedDigits (test : Char → Bool) : Nat → Reader (List Char)
  | 0 => failure
  | steps + 1 => do
    let ds ← takeWhile test
    if ds.isEmpty then failure
    else if ← accept ['_'] then return ds ++ (← groupedDigits test steps)
    else return ds

def grouped (test : Char → Bool) : Reader (List Char) := do groupedDigits test (← get).length

def sign : Reader (List Char) := do
  if ← accept ['-'] then pure ['-'] else if ← accept ['+'] then pure ['+'] else pure []

def decimalText : Reader (List Char) := do
  let signText ← sign
  if ← accept ['0'] then return signText ++ ['0'] else return signText ++ (← grouped Char.isDigit)

def bounded (i : Int) : Reader Int64 :=
  if Number.fits i then pure (Int64.ofInt i) else failure

def based (base : Nat) (test : Char → Bool) : Reader Int64 := do
  bounded (ofBase base (← grouped test))

def integer : Reader Int64 := do
  if ← accept ['0','x'] then based 16 isHexDigit
  else if ← accept ['0','o'] then based 8 fun c => '0' ≤ c && c ≤ '7'
  else if ← accept ['0','b'] then based 2 fun c => c == '0' || c == '1'
  else match Number.readInt64? (← decimalText) with
    | some i => pure i
    | none => failure

def exponentText : Reader (List Char) := do
  let letter ← next
  if letter = 'e' ∨ letter = 'E' then do
    let signText ← sign
    return 'e' :: signText ++ (← grouped Char.isDigit)
  else failure

def fractionText : Reader (List Char) := do
  char '.'
  return '.' :: (← grouped Char.isDigit)

/-- A number with a point, an exponent or both. One that is too large is refused. -/
def pointed : Reader Binary64 := do
  let whole ← decimalText
  let tail ← exponentText <|> do
    let fraction ← fractionText
    return fraction ++ (← exponentText <|> pure [])
  match Binary64.read? (whole ++ tail) with
  | some (.infinite false) | none => failure
  | some x => pure x

def named : Reader Binary64 := do
  let signText ← sign
  if ← accept ['i','n','f'] then return .infinite (signText == ['-'])
  else if ← accept ['n','a','n'] then return .nan
  else failure

def field (count low high : Nat) : Reader Nat := do
  let n := ofBase 10 (← exactly count Char.isDigit)
  if low ≤ n ∧ n ≤ high then pure n else failure

def isLeapYear (year : Nat) : Bool := year % 4 == 0 && (year % 100 != 0 || year % 400 == 0)

def daysIn (year month : Nat) : Nat :=
  if month = 2 then (if isLeapYear year then 29 else 28)
  else if month ∈ [4,6,9,11] then 30
  else 31

def date : Reader Unit := do
  let year ← field 4 0 9999
  char '-'
  let month ← field 2 1 12
  char '-'
  discard (field 2 1 (daysIn year month))

/-- A time of day down to the second, which may be a leap second, or to a fraction of it. -/
def time : Reader Unit := do
  discard (field 2 0 23)
  char ':'
  discard (field 2 0 59)
  char ':'
  discard (field 2 0 60)
  let fraction : Reader Unit := do
    char '.'
    if (← takeWhile Char.isDigit).isEmpty then failure
  fraction <|> pure ()

def offset : Reader Unit := do
  let c ← next
  if c = 'Z' ∨ c = 'z' then pure ()
  else if c = '+' ∨ c = '-' then do
    discard (field 2 0 23)
    char ':'
    discard (field 2 0 59)
  else failure

def moment : Reader Unit := do
  let timeOfDay : Reader Unit := do
    let c ← next
    if c = 'T' ∨ c = 't' ∨ c = ' ' then do
      time
      offset <|> pure ()
    else failure
  let dated : Reader Unit := do
    date
    timeOfDay <|> pure ()
  dated <|> time

def boolean : Reader Bool := do
  if ← accept ['t','r','u','e'] then pure true
  else if ← accept ['f','a','l','s','e'] then pure false
  else failure

end TreeConsole.Toml
