import TreeConsole.Command

/-! Session variables.
`set` hands the tokens after its first one to the variable that this token names. A variable has a signature
and a handler like a command; the tokens are bound to that signature before the handler runs.
-/
namespace TreeConsole

abbrev Variables (σ : Type) := Table (Entry (Handler σ))

namespace Variables
variable {σ : Type}

/-- Adds a variable under the name of its signature, in place of an older one. -/
def register (known : Variables σ) (signature : Signature) (handler : Handler σ) : Variables σ :=
  known.insert signature.name ⟨signature,handler⟩

/-- Adds declared variables in order; those that cannot be built are left out and reported. -/
def installAll (known : Variables σ) (declared : List (Declaration × Handler σ)) :
    Variables σ × List DefinitionError :=
  declared.foldl (fun (known,errors) (d,handler) =>
    match d.build with
    | .ok signature => (known.register signature handler,errors)
    | .error error => (known,errors ++ [error])) (known,[])

def unknown (known : Variables σ) (inv : Invocation) : Outcome :=
  .fail ("Variable not found: " ++ (inv.argString? "variable").getD "" ++ ". Known variables: "
    ++ ", ".intercalate known.keys)

def handler (known : Variables σ) : Handler σ := fun catalog inv w =>
  match inv.raw with
  | [] => (w,known.unknown inv)
  | key :: rest =>
    match known.get? key with
    | none => (w,known.unknown inv)
    | some entry =>
      match entry.signature.bind rest with
      | .ok bound => entry.content catalog bound w
      | .error error => (w,.fail (inv.command ++ " " ++ error.message))

def declaration : Declaration :=
  .ofClauses "set" "Set a session variable"
    [.argument "variable" "string" "Variable name",.argument "value" "string" "New value"]

def promptDeclaration : Declaration :=
  .ofClauses "prompt" "Prompt shown before each line"
    [.usage "set prompt <value>",.argument "value" "string(1:32)" "New prompt text"]

def setPrompt : Handler σ := fun _ inv w =>
  match inv.argString? "value" with
  | none => (w,.fail "set prompt: missing value")
  | some text =>
    ({ w with preferences := { w.preferences with prompt := text } },.succeed ("prompt = " ++ text))

def printResultsDeclaration : Declaration :=
  .ofClauses "print_results" "Print each method result in cm"
    [.usage "set print_results <bool>",.argument "enabled" "bool" "on or off"]

def setPrintResults : Handler σ := fun _ inv w =>
  match (inv.arguments.get? "enabled").bind Value.asBool? with
  | none => (w,.fail "set print_results: missing value")
  | some enabled =>
    ({ w with preferences := { w.preferences with printResults := enabled } },
      .succeed ("print_results = " ++ Value.boolText enabled))

def builtin : Variables σ × List DefinitionError :=
  installAll .empty [(promptDeclaration,setPrompt),(printResultsDeclaration,setPrintResults)]

end Variables
end TreeConsole
