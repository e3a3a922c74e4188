/-! Command-line arguments.
`--config PATH`, `-c LINE` or `--command LINE`, any number of times, `--output FORMAT`, `--log-file`, and the usual
requests for help and version. A value follows its option as the next argument or after `=`. An option whose value
is still to come is settled when the next option is met or the arguments end; only then is its value looked at.
-/
namespace TreeConsole

inductive OutputFormat where
  | text
  | json
deriving DecidableEq

namespace OutputFormat

def read? (s : String) : Option OutputFormat :=
  match String.ofList (s.toList.map Char.toLower) with
  | "text" => some .text
  | "json" => some .json
  | _ => none

def complaint (s : String) : String := "Invalid output format: " ++ s ++ ". Expected: text or json"

end OutputFormat

structure Arguments where
  config : Option String
  commands : List String
  output : OutputFormat
  logFile : Bool
deriving DecidableEq

def Arguments.isBatch (arguments : Arguments) : Bool := !arguments.commands.isEmpty

inductive ArgumentStop where
  | unknownArgument
  | tooManyValues
  | invalidValue
  | valueValidation
  | argumentConflict
  | displayHelp
  | displayVersion
deriving DecidableEq

/-- Only the requests for help and version count as success. -/
def ArgumentStop.isError : ArgumentStop → Bool
  | .displayHelp | .displayVersion => false
  | _ => true

inductive ValuedOption where
  | config
  | command
  | output
deriving DecidableEq

inductive Switch where
  | logFile
  | help
  | version
deriving DecidableEq

/-- The arguments so far, and the option that waits to be settled, with its value if that has come. -/
structure Reading where
  config : Option String
  commands : List String
  output : Option OutputFormat
  logFile : Bool
  waiting : Option (ValuedOption × Option String)

namespace Reading

def start : Reading := ⟨none,[],none,false,none⟩

def assign (r : Reading) : ValuedOption → String → Except ArgumentStop Reading
  | .config,path =>
    if r.config.isSome then .error .argumentConflict
    else if path.isEmpty then .error .invalidValue
    else .ok { r with config := some path }
  | .command,line => .ok { r with commands := r.commands ++ [line] }
  | .output,name =>
    if r.output.isSome then .error .argumentConflict
    else match OutputFormat.read? name with
      | some format => .ok { r with output := some format }
      | none => .error .valueValidation

def settle (r : Reading) : Except ArgumentStop Reading :=
  match r.waiting with
  | none => .ok r
  | some (_,none) => .error .invalidValue
  | some (option,some value) => { r with waiting := none }.assign option value

def setSwitch (r : Reading) (switch : Switch) : Except ArgumentStop Reading := do
  let r ← r.settle
  match switch with
  | .logFile => if r.logFile then throw .argumentConflict else pure { r with logFile := true }
  | .help => throw .displayHelp
  | .version => throw .displayVersion

def setOption (r : Reading) (option : ValuedOption) (value : Option String) : Except ArgumentStop Reading := do
  let r ← r.settle
  match value with
  | some value => r.assign option value
  | none => pure { r with waiting := some (option,none) }

def splitValue (cs : List Char) : String × Option String :=
  match cs.span (· != '=') with
  | (name,[]) => (String.ofList name,none)
  | (name,_ :: value) => (String.ofList name,some (String.ofList value))

def longSwitch? : String → Option Switch
  | "log-file" => some .logFile
  | "help" => some .help
  | "version" => some .version
  | _ => none

def longOption? : String → Option ValuedOption
  | "config" => some .config
  | "command" => some .command
  | "output" => some .output
  | _ => none

def readLong (r : Reading) (cs : List Char) : Except ArgumentStop Reading :=
  let (name,value) := splitValue cs
  match longSwitch? name,longOption? name,value with
  | some switch,_,none => r.setSwitch switch
  | some _,_,some _ => .error .tooManyValues
  | none,some option,value => r.setOption option value
  | none,none,_ => .error .unknownArgument

def readShort (r : Reading) : List Char → Except ArgumentStop Reading
  | 'c' :: [] => r.setOption .command none
  | 'c' :: '=' :: value => r.setOption .command (some (String.ofList value))
  | 'c' :: value => r.setOption .command (some (String.ofList value))
  | 'h' :: _ => r.setSwitch .help
  | 'V' :: _ => r.setSwitch .version
  | _ => .error .unknownArgument

def readValue (r : Reading) (value : String) : Except ArgumentStop Reading :=
  match r.waiting with
  | some (option,none) => .ok { r with waiting := some (option,some value) }
  | _ => .error .unknownArgument

/-- Reads arguments from left to right. Nothing may follow two dashes that stand alone. -/
def read (r : Reading) : List String → Except ArgumentStop Reading
  | [] => r.settle
  | argument :: rest =>
    match argument.toList with
    | ['-','-'] => if rest.isEmpty then r.settle else .error .unknownArgument
    | '-' :: '-' :: name => do (← r.readLong name).read rest
    | '-' :: c :: more => do (← r.readShort (c :: more)).read rest
    | _ => do (← r.readValue argument).read rest

end Reading

namespace Arguments

/-- Reads the arguments after the program's name. Without an option for it, the configuration path is the one
that the environment gives. -/
def read (environment : Option String) (arguments : List String) : Except ArgumentStop Arguments := do
  let r ← Reading.start.read arguments
  let config ← match r.config,environment with
    | some path,_ => pure (some path)
    | none,some "" => throw .invalidValue
    | none,path => pure path
  pure ⟨config,r.commands,r.output.getD .text,r.logFile⟩

end Arguments
end TreeConsole
