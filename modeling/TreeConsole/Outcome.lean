import TreeConsole.Text.Json
import TreeConsole.Value

/-! Outcomes of commands. -/
namespace TreeConsole

inductive Action where
  | exit
deriving DecidableEq

/-- The end of one command: whether it succeeded, its message, which may be empty, and a request. -/
structure Outcome where
  success : Bool
  message : String
  action : Option Action
deriving DecidableEq

namespace Outcome

def succeed (message : String) : Outcome := ⟨true,message,none⟩

def fail (message : String) : Outcome := ⟨false,message,none⟩

def isExit (outcome : Outcome) : Bool := outcome.action == some .exit

def json (outcome : Outcome) : String :=
  "\x7b\"success\":" ++ Value.boolText outcome.success ++ ",\"message\":" ++ Json.quote outcome.message
    ++ (if outcome.isExit then ",\"action\":\"exit\"" else "") ++ "\x7d"

end Outcome
end TreeConsole
