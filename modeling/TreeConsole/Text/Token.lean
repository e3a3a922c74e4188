import TreeConsole.Text.Split

/-! Tokens of a command line.
A line is cut into words at blank characters; then the words of one quoted run are joined by single
spaces into one token without the quotes. A run opens with a quote at the start of a word or right
after the word's first `=`, and closes at the first word that ends with the same quote. A quote that
never closes is kept as it stands.
-/
namespace TreeConsole.Text

def isQuote (c : Char) : Bool := c == '"' || c == '\''

/-- Where a quoted run opens in a word: the text before the quote, the quote, and the text after it. -/
def opening (word : List Char) : Option (List Char × Char × List Char) :=
  match word with
  | [] => none
  | first :: rest =>
    if isQuote first then some ([],first,rest)
    else match cut '=' word with
      | some (before,quote :: after) => if isQuote quote then some (before ++ ['='],quote,after) else none
      | _ => none

/-- The word without its last character when that is `quote`. -/
def closing (quote : Char) (word : List Char) : Option (List Char) :=
  if word.getLast? = some quote then some word.dropLast else none

/-- The words up to the first one that closes a run, that one without its quote, and the words after it. -/
def closeRun (quote : Char) : List (List Char) → Option (List (List Char) × List (List Char))
  | [] => none
  | word :: rest =>
    match closing quote word with
    | some last => some ([last],rest)
    | none => (closeRun quote rest).map fun (run,after) => (word :: run,after)

theorem length_of_closeRun {quote : Char} {ws run after : List (List Char)}
    (closed : closeRun quote ws = some (run,after)) : after.length < ws.length := by
  induction ws generalizing run with
  | nil => simp [closeRun] at closed
  | cons word rest ih =>
    unfold closeRun at closed
    split at closed
    · cases closed; simp
    · obtain ⟨⟨inner,left⟩,inside,equal⟩ := Option.map_eq_some_iff.mp closed
      cases equal
      exact Nat.lt_succ_of_lt (ih inside)

def unwords (ws : List (List Char)) : List Char := [' '].intercalate ws

def joinQuoted : List (List Char) → List (List Char)
  | [] => []
  | word :: rest =>
    match opening word with
    | none => word :: joinQuoted rest
    | some (before,quote,inner) =>
      match closing quote inner with
      | some whole => (before ++ whole) :: joinQuoted rest
      | none =>
        match _ : closeRun quote rest with
        | some (run,after) => (before ++ unwords (inner :: run)) :: joinQuoted after
        | none => word :: joinQuoted rest
termination_by ws => ws.length
decreasing_by
  all_goals simp_wf
  have shorter := length_of_closeRun ‹_›
  omega

def lineWords (line : String) : List String := (words line.toList).map String.ofList

def mergeQuoted (tokens : List String) : List String :=
  (joinQuoted (tokens.map String.toList)).map String.ofList

/-- The tokens of a line: its words, with every quoted run joined. -/
def tokenize (line : String) : List String := mergeQuoted (lineWords line)

end TreeConsole.Text
