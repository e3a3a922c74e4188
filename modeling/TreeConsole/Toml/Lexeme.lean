import TreeConsole.Number.Digits

/-! Characters, keys and strings of TOML.
A reader takes something off the front of a text or fails. Strings come in four forms: basic ones with escapes
and literal ones without, each on one line or on several between tripled quotes.
-/
namespace TreeConsole.Toml

abbrev Reader := StateT (List Char) Option

namespace Reader

def next : Reader Char := fun
  | [] => none
  | c :: rest => some (c,rest)

def peek : Reader (Option Char) := do return (← get).head?

def char (c : Char) : Reader Unit := do if (← next) = c then pure () else failure

def takeWhile (test : Char → Bool) : Reader (List Char) := fun cs => some (cs.span test)

def accept (word : List Char) : Reader Bool := fun cs =>
  if word.isPrefixOf cs then some (true,cs.drop word.length) else some (false,cs)

def exactly (count : Nat) (test : Char → Bool) : Reader (List Char) := fun cs =>
  if (cs.take count).length = count ∧ (cs.take count).all test then some (cs.take count,cs.drop count) else none

end Reader

open Reader

def isSpace (c : Char) : Bool := c == ' ' || c == '\t'

/-- Characters that may stand in strings and comments: no control characters but the tab. -/
def isPlain (c : Char) : Bool := c == '\t' || (0x20 ≤ c.toNat && c.toNat != 0x7F)

def isBare (c : Char) : Bool := c.isAlphanum || c == '-' || c == '_'

def isHexDigit (c : Char) : Bool := c.isDigit || ('a' ≤ c && c ≤ 'f') || ('A' ≤ c && c ≤ 'F')

def digitValue (c : Char) : Nat :=
  if c.isDigit then c.toNat - '0'.toNat
  else if c.isUpper then c.toNat - 'A'.toNat + 10
  else c.toNat - 'a'.toNat + 10

def ofBase (base : Nat) (ds : List Char) : Nat := ds.foldl (fun n c => n * base + digitValue c) 0

def spaces : Reader Unit := do discard (takeWhile isSpace)

def newline : Reader Unit := do
  if ← accept ['\n'] then pure ()
  else if ← accept ['\r','\n'] then pure ()
  else failure

def atNewline : Reader Bool := fun cs => some ((newline cs).isSome,cs)

/-- Everything from a number sign to the end of the line, which must hold plain characters only. -/
def comment : Reader Unit := do
  char '#'
  discard (takeWhile isPlain)

/-- The end of a line: spaces, perhaps a comment, and then a newline or the end of the text. -/
def lineEnd : Reader Unit := do
  spaces
  if (← peek) = some '#' then comment
  match ← peek with
  | none => pure ()
  | some _ => newline

/-- Skips spaces, newlines and comments, in at most so many steps. -/
def gap : Nat → Reader Unit
  | 0 => pure ()
  | steps + 1 => do
    spaces
    match ← peek with
    | some '#' => do
      comment
      newline
      gap steps
    | some '\n' | some '\r' => do
      newline
      gap steps
    | _ => pure ()

def scalar (count : Nat) : Reader Char := do
  let n := ofBase 16 (← exactly count isHexDigit)
  if n < 0xD800 ∨ (0xDFFF < n ∧ n < 0x110000) then pure (Char.ofNat n) else failure

def escape : Reader Char := do
  match ← next with
  | 'b' => pure '\x08'
  | 't' => pure '\t'
  | 'n' => pure '\n'
  | 'f' => pure '\x0c'
  | 'r' => pure '\r'
  | '"' => pure '"'
  | '\\' => pure '\\'
  | 'u' => scalar 4
  | 'U' => scalar 8
  | _ => failure

def lineString (quote : Char) : Nat → Reader (List Char)
  | 0 => failure
  | steps + 1 => do
    let c ← next
    if c = quote then pure []
    else if c = '\\' ∧ quote = '"' then do
      let c ← escape
      return c :: (← lineString quote steps)
    else if isPlain c then do return c :: (← lineString quote steps)
    else failure

/-- Skips the line break after a backslash and all blank space that follows it. -/
def continueLine : Nat → Reader Unit
  | 0 => pure ()
  | steps + 1 => do
    spaces
    if ← atNewline then do
      newline
      continueLine steps

/-- Whether a backslash just read ends its line. -/
def endsLine : Reader Bool := fun cs => some ((newline (cs.dropWhile isSpace)).isSome,cs)

/-- The rest of a string on several lines. Up to two quotes may stand directly before the closing three. -/
def blockString (quote : Char) : Nat → Reader (List Char)
  | 0 => failure
  | steps + 1 => do
    let quotes := ((← get).takeWhile (· == quote)).length
    if 3 ≤ quotes then do
      let kept := min quotes 5 - 3
      discard (exactly (kept + 3) (· == quote))
      return List.replicate kept quote
    else if ← atNewline then do
      newline
      return '\n' :: (← blockString quote steps)
    else do
      let c ← next
      if c = '\\' ∧ quote = '"' then
        if ← endsLine then do
          continueLine (← get).length
          blockString quote steps
        else do
          let c ← escape
          return c :: (← blockString quote steps)
      else if isPlain c then do return c :: (← blockString quote steps)
      else failure

def quoted (quote : Char) : Reader String := do
  char quote
  return String.ofList (← lineString quote (← get).length)

def string (quote : Char) : Reader String := do
  if ← accept [quote,quote,quote] then do
    if ← atNewline then newline
    return String.ofList (← blockString quote (← get).length)
  else quoted quote

def keyPart : Reader String := do
  match ← peek with
  | some '"' => quoted '"'
  | some '\'' => quoted '\''
  | _ => do
    let cs ← takeWhile isBare
    if cs.isEmpty then failure else pure (String.ofList cs)

def keyParts : Nat → Reader (List String)
  | 0 => failure
  | steps + 1 => do
    spaces
    let part ← keyPart
    spaces
    if ← accept ['.'] then return part :: (← keyParts steps) else return [part]

def depthLimit : Nat := 80

/-- A key: the parts before the last one, and the last one. -/
def key : Reader (List String × String) := do
  let parts ← keyParts (← get).length
  match parts.getLast? with
  | some last => if parts.length < depthLimit then pure (parts.dropLast,last) else failure
  | none => failure

end TreeConsole.Toml
