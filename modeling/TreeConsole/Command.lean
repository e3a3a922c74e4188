import TreeConsole.Catalog
import TreeConsole.Outcome
import TreeConsole.Preferences
import TreeConsole.Signature.Binding
import TreeConsole.Text.Token

/-! Commands and their dispatch.
The first token of a line names a command, the others are bound to its signature, and its handler runs on the
bound invocation. Whatever goes wrong before that becomes a failed outcome and changes nothing.
-/
namespace TreeConsole

/-- What a command can read and change: the focus of the session and its preferences. -/
structure World (σ : Type) extends Focus σ where
  preferences : Preferences

namespace World
variable {σ : Type}

def refocus (w : World σ) (f : Focus σ) : World σ := { w with toFocus := f }

end World

/-- What a command does. It sees the signatures of all commands but not their handlers. -/
def Handler (σ : Type) : Type := Catalog Unit → Invocation → World σ → World σ × Outcome

inductive DispatchError where
  | empty
  | unknownCommand (name : String)
  | binding (error : BindingError)
deriving DecidableEq

def DispatchError.message : DispatchError → String
  | .empty => "empty command"
  | .unknownCommand name => "Unknown command: " ++ name ++ ". Type help for available commands."
  | .binding error => error.message

namespace Catalog
variable {σ : Type}

def prepare (catalog : Catalog (Handler σ)) (tokens : List String) (line : String) :
    Except DispatchError (Handler σ × Invocation) :=
  match tokens with
  | [] => .error .empty
  | name :: rest =>
    match catalog.find? name with
    | none => .error (.unknownCommand name)
    | some entry =>
      match entry.signature.bind rest with
      | .ok inv => .ok (entry.content,{ inv with line := line })
      | .error error => .error (.binding error)

def route (catalog : Catalog (Handler σ)) (tokens : List String) (line : String) (w : World σ) :
    World σ × Outcome :=
  match catalog.prepare tokens line with
  | .ok (handler,inv) => handler catalog.listing inv w
  | .error error => (w,.fail error.message)

def dispatch (catalog : Catalog (Handler σ)) (tokens : List String) (w : World σ) : World σ × Outcome :=
  catalog.route tokens (" ".intercalate (tokens.drop 1)) w

def remainder (line : String) : String :=
  String.ofList (Text.trimStart ((Text.trim line.toList).dropWhile fun c => !Text.isBlank c))

/-- Runs the command on a line; its handler also sees the text after the first word as typed. -/
def executeLine (catalog : Catalog (Handler σ)) (line : String) (w : World σ) : World σ × Outcome :=
  catalog.route (Text.tokenize line) (remainder line) w

def install (catalog : Catalog (Handler σ)) (d : Declaration) (handler : Handler σ) :
    Except DefinitionError (Catalog (Handler σ)) := do
  pure (catalog.register (← d.build) handler)

/-- Installs commands in order; those that cannot be built are left out and reported. -/
def installAll (catalog : Catalog (Handler σ)) (commands : List (Declaration × Handler σ)) :
    Catalog (Handler σ) × List DefinitionError :=
  commands.foldl (fun (catalog,errors) (d,handler) =>
    match catalog.install d handler with
    | .ok grown => (grown,errors)
    | .error error => (catalog,errors ++ [error])) (catalog,[])

end Catalog
end TreeConsole
