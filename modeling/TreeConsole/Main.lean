import TreeConsole.Program

/-! The command line of the tree console.
Reads arguments, the environment, the configuration file and standard input, and prints what the program answers.
-/
namespace TreeConsole.Main

def usage : String :=
  "Usage: tree-console [--config PATH] [-c LINE]... [--output text|json] [--log-file]"

def version : String := "tree-console 0.1.0"

def userDirectory (variableName fallback : String) : IO String := do
  match ← IO.getEnv variableName with
  | some path => if path.startsWith "/" then return path
  | none => pure ()
  return (← IO.getEnv "HOME").getD "." ++ fallback

def reason : IO.Error → String
  | .inappropriateType _ code details | .permissionDenied _ code details =>
    details ++ " (os error " ++ Value.natText code.toNat ++ ")"
  | error => toString error

/-- The file at a path. A path through something that is no directory leads nowhere. -/
def readAt (path : String) : IO File := do
  try return .content (← IO.FS.readBinFile path)
  catch
    | .noFileOrDirectory .. | .inappropriateType _ _ "not a directory" => return .missing
    | error => return .unreadable (reason error)

def createLog : IO Unit := do
  let directory := (← userDirectory "XDG_STATE_HOME" "/.local/state") ++ "/tree-console"
  try
    IO.FS.createDirAll directory
    IO.FS.writeFile (directory ++ "/tree-console.log") ""
  catch error => IO.eprintln ("Warning: Could not create log file: " ++ toString error)

def emit (printed : Transcript) : IO Unit := do
  for item in printed do
    match item with
    | .out text => IO.print text
    | .err text => IO.eprint text
  (← IO.getStdout).flush

partial def readLine (input : IO.FS.Stream) (line : ByteArray) : IO ByteArray := do
  let byte ← input.read 1
  if byte.isEmpty then return line
  else if byte[0]? == some 10 then return line ++ byte
  else readLine input (line ++ byte)

partial def converse (format : OutputFormat) (console : Console) : IO UInt32 := do
  emit [console.promptText]
  match inputLines (← readLine (← IO.getStdin) .empty) with
  | [] => return 0
  | line :: _ =>
    match console.turn line with
    | .next after outcome => do
      emit ((outcome.map (·.print format)).getD [])
      converse format after
    | .exit _ outcome => do
      emit (outcome.print format)
      return 0
    | .unreadable => do
      emit [.err Console.unreadableText]
      return 1

def finish (result : RunResult) : IO UInt32 := do
  emit result.printed
  return result.code.toUInt32

def configPath (arguments : Arguments) : IO String := do
  match arguments.config with
  | some path => return path
  | none => return (← userDirectory "XDG_CONFIG_HOME" "/.config") ++ "/tree-console/config.toml"

def start (arguments : Arguments) : IO UInt32 := do
  if arguments.logFile then createLog
  let path ← configPath arguments
  match Program.prepare path (← readAt path) with
  | .error error => finish (Program.failure error.message)
  | .ok console =>
    if arguments.isBatch then finish (Program.batch arguments.output console arguments.commands)
    else converse arguments.output console

def stop (reason : ArgumentStop) : IO UInt32 := do
  match reason with
  | .displayHelp => IO.println usage
  | .displayVersion => IO.println version
  | _ => IO.eprintln usage
  return if reason.isError then 2 else 0

end TreeConsole.Main

def main (arguments : List String) : IO UInt32 := do
  match TreeConsole.Arguments.read (← IO.getEnv "TREE_CONSOLE_CONFIG") arguments with
  | .ok understood => TreeConsole.Main.start understood
  | .error reason => TreeConsole.Main.stop reason
