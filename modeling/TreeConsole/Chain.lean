import TreeConsole.Host
import TreeConsole.Value.Literal

/-! Chains of method calls.
A chain is a text of calls joined by dots, such as `get_child(0).get_name()`. Dots and commas inside quotes
or parentheses belong to what they stand in. A call is an identifier, alone or with literals in parentheses.
-/
namespace TreeConsole

/-- Where a scan stands: inside a quote that waits for its like, and below how many parentheses. -/
structure Nesting where
  quote : Option Char
  depth : Nat
deriving DecidableEq

namespace Nesting

def outside : Nesting := ⟨none,0⟩

/-- The nesting after one more character, unless that closes a parenthesis too many. -/
def after (state : Nesting) (c : Char) : Option Nesting :=
  match state.quote with
  | some quote => some (if c = quote then ⟨none,state.depth⟩ else state)
  | none =>
    if Text.isQuote c then some ⟨some c,state.depth⟩
    else if c = '(' then some ⟨none,state.depth + 1⟩
    else if c = ')' then (if state.depth = 0 then none else some ⟨none,state.depth - 1⟩)
    else some state

end Nesting

namespace Chain
open Text

def extend (c : Char) : List (List Char) → List (List Char)
  | [] => [[c]]
  | first :: rest => (c :: first) :: rest

/-- The pieces between separators that stand outside quotes and parentheses, if all of those close. -/
def scan (separator : Char) : Nesting → List Char → Option (List (List Char))
  | state,[] => if state = .outside then some [[]] else none
  | state,c :: rest =>
    if c = separator ∧ state = .outside then (scan separator .outside rest).map ([] :: ·)
    else (state.after c).bind fun next => (scan separator next rest).map (extend c)

def splitOutside (separator : Char) (cs : List Char) : Option (List (List Char)) :=
  (scan separator .outside cs).map clean

end Chain

structure Call where
  method : String
  args : List Value

inductive ChainError where
  | empty
  | malformed (text : String)
  | invalidInstance (method : String)
  | invalidMethod (method receiver : String)
  | invocation (method : String) (source : HostError)
deriving DecidableEq

def ChainError.message : ChainError → String
  | .empty => "no method to call"
  | .malformed text => "invalid method call '" ++ text ++ "'"
  | .invalidInstance method => "cannot call '" ++ method ++ "': the target is no longer valid"
  | .invalidMethod method receiver => "method '" ++ method ++ "' not found on " ++ receiver
  | .invocation method source => "'" ++ method ++ "' failed: " ++ source.message

namespace Call
open Text

def isNameStart (c : Char) : Bool := c.isAlpha || c == '_'

def isNameChar (c : Char) : Bool := c.isAlphanum || c == '_'

def readArguments? (cs : List Char) : Option (List Value) :=
  (Chain.splitOutside ',' cs).map fun parts => parts.map Value.ofTrimmed

def readList? : List Char → Option (List Value)
  | [] => some []
  | '(' :: rest => (closing ')' rest).bind fun inner => if '\n' ∈ inner then none else readArguments? inner
  | _ => none

def readTrimmed? (cs : List Char) : Option Call :=
  let (name,rest) := cs.span isNameChar
  if name.head?.any isNameStart then (readList? (trimStart rest)).map fun args => ⟨String.ofList name,args⟩
  else none

def read (text : String) : Except ChainError Call :=
  match readTrimmed? (trim text.toList) with
  | some call => .ok call
  | none => .error (.malformed (trimmed text))

end Call

namespace Chain

def segments (text : String) : Except ChainError (List String) :=
  match splitOutside '.' text.toList with
  | some parts => .ok (parts.map String.ofList)
  | none => .error (.malformed (Text.trimmed text))

def read (text : String) : Except ChainError (List Call) := do
  let calls ← (← segments text).mapM Call.read
  if calls.isEmpty then throw .empty
  pure calls

end Chain
end TreeConsole
