import TreeConsole.Text.Uppercase
import TreeConsole.Variables

/-! Built-in commands.
`help` and `echo` change nothing, `quit` asks to exit, `cn` moves the target, `cm` calls a chain of methods on
it, and `set` changes preferences. `exit` is another name for `quit`.
-/
namespace TreeConsole.Builtin
variable {σ : Type}

def helpDeclaration : Declaration :=
  .ofClauses "help" "Show available commands or help for one command" [.usage "help [command]"]

/-- Aliases after some introduction, or nothing when there are none. -/
def aliasText (opening closing : String) (aliases : List String) : String :=
  if aliases.isEmpty then "" else opening ++ ", ".intercalate aliases ++ closing

def helpLine (catalog : Catalog Unit) (sig : Signature) : String :=
  "\n  " ++ Text.padRight 8 sig.name ++ " " ++ sig.description
    ++ aliasText " (alias: " ")" (catalog.aliasesOf sig.name)

def helpOverview (catalog : Catalog Unit) : String :=
  "Commands:" ++ String.join (catalog.signatures.map (helpLine catalog)) ++ "\n\nType help <command> for details."

def help : Handler σ := fun catalog inv w =>
  match inv.raw with
  | [] => (w,.succeed (helpOverview catalog))
  | name :: _ =>
    match catalog.find? name with
    | none => (w,.fail ("No help for unknown command: " ++ name))
    | some entry =>
      (w,.succeed (entry.signature.helpText ++ aliasText "\nAliases: " "" (catalog.aliasesOf entry.signature.name)))

def echoDeclaration : Declaration :=
  .ofClauses "echo" "Print text back"
    [.argument "text" "string..." "Words to print",.flag "-upper" "Print in upper case",
      .option "-repeat" (some "int(1:100)") "Number of lines to print" (.int 1)]

def echo : Handler σ := fun _ inv w =>
  let words := (((inv.arguments.get? "text").bind Value.asList?).getD []).filterMap Value.asString?
  let line := " ".intercalate words
  let line := if inv.flag "-upper" then Text.upper line else line
  let count := max (((inv.optionInt? "-repeat").getD 1).toInt.toNat) 1
  (w,.succeed ("\n".intercalate (List.replicate count line)))

def quitDeclaration : Declaration := .ofClauses "quit" "Exit the interpreter" []

def quit : Handler σ := fun _ _ w => (w,{ Outcome.succeed "Goodbye." with action := some .exit })

def selectDeclaration : Declaration :=
  .ofClauses "cn" "Change the current target"
    [.argument "path" "string" "Relative or absolute object path"]

def select (host : Host σ) : Handler σ := fun _ inv w =>
  let path := (inv.argString? "path").getD ""
  let (f,result) := w.toFocus.select host path
  match result with
  | .ok id => (w.refocus f,.succeed ("Target: " ++ host.describe f.host id))
  | .error reason => (w.refocus f,.fail (path ++ ": " ++ reason.message))

def chainDeclaration : Declaration :=
  .ofClauses "cm" "Call methods on the current target"
    [.usage "cm <method(args)[.method(args)...]>",
      .argument "chain" "string..." "Method chain, e.g. get_child(0).get_name()"]

def completedLine (host : Host σ) (s : σ) (done : Completed) : String :=
  done.method ++ ": " ++ host.render s done.value

/-- Runs the chain on the line as typed, because tokens have lost their quotes. -/
def chain (host : Host σ) : Handler σ := fun _ inv w =>
  let (f,run) := w.toFocus.runChain host inv.line
  let lines := if w.preferences.printResults then run.completed.map (completedLine host f.host) else []
  match run.answer with
  | .ok _ => (w.refocus f,.succeed ("\n".intercalate lines))
  | .error error => (w.refocus f,.fail ("\n".intercalate (lines ++ [error.message])))

/-- The commands that every console has, and the errors of those that could not be built. -/
def catalog (host : Host σ) : Catalog (Handler σ) × List DefinitionError :=
  let (known,errors) : Variables σ × List DefinitionError := Variables.builtin
  let (commands,more) := Catalog.installAll .empty
    [(helpDeclaration,help),(echoDeclaration,echo),(quitDeclaration,quit),(selectDeclaration,select host),
      (chainDeclaration,chain host),(Variables.declaration,known.handler)]
  (commands.addAlias "exit" "quit",errors ++ more)

end TreeConsole.Builtin
