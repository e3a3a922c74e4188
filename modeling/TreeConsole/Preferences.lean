import TreeConsole.Focus
import TreeConsole.Signature.Declaration

/-! Preferences of a session, and the errors that keep a console from starting. -/
namespace TreeConsole

structure Preferences where
  prompt : String
  printResults : Bool
  startPath : Option String
deriving DecidableEq

namespace Preferences

def initial : Preferences := ⟨"> ",true,none⟩

end Preferences

inductive ConfigError where
  | unreadable (reason : String)
  | malformed (file : String)
deriving DecidableEq

def ConfigError.message : ConfigError → String
  | .unreadable reason => "Failed to read config file: " ++ reason
  | .malformed file => "Configuration error in " ++ file ++ ":"

inductive ConsoleError where
  | definition (error : DefinitionError)
  | config (error : ConfigError)
  | startPath (path : String) (reason : Rejection)
deriving DecidableEq

namespace ConsoleError

def category : ConsoleError → String
  | .definition _ => "Definition Error"
  | .config _ => "Configuration Error"
  | .startPath .. => "Host Error"

def message : ConsoleError → String
  | .definition error => "Definition error: " ++ error.message
  | .config error => "Configuration error: " ++ error.message
  | .startPath path reason => "Host error: start path '" ++ path ++ "': " ++ reason.message

end ConsoleError
end TreeConsole
