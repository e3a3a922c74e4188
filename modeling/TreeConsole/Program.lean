import TreeConsole.Arguments
import TreeConsole.Configuration
import TreeConsole.Session
import TreeConsole.Tree.Method

/-! The program.
A console is a session over a sample tree. Given commands it runs them in order, and its exit code tells whether
one of them failed; otherwise it prints its prompt before each line that it reads and skips blank lines. Both
stop after a command that asks to exit. What is printed is kept as a transcript, in order.
-/
namespace TreeConsole

inductive Printed where
  | out (text : String)
  | err (text : String)
deriving DecidableEq

abbrev Transcript := List Printed

namespace Transcript

def output (printed : Transcript) : String :=
  String.join (printed.map fun
    | .out text => text
    | .err _ => "")

def errors (printed : Transcript) : String :=
  String.join (printed.map fun
    | .out _ => ""
    | .err text => text)

end Transcript

/-- An outcome as it is printed. Failures go to standard error, except in JSON. -/
def Outcome.print (outcome : Outcome) : OutputFormat → Transcript
  | .json => [.out (outcome.json ++ "\n")]
  | .text =>
    if outcome.message.isEmpty then []
    else if outcome.success then [.out (outcome.message ++ "\n")]
    else [.err (outcome.message ++ "\n")]

def Tree.grow (t : Tree) (parent : Handle) (name : String) : Tree :=
  match t.addChild parent name with
  | .ok (grown,_) => grown
  | .error _ => t

/-- The tree that the program starts with: a level with a player and a camera, and an interface with a display. -/
def sampleTree : Tree :=
  ((((Tree.new.grow 0 "level").grow 1 "player").grow 1 "camera").grow 0 "ui").grow 4 "hud"

structure Console where
  tree : Tree
  session : Session Tree

abbrev InputLine := Option String

namespace Console

def start (preferences : Preferences) : Except ConsoleError Console :=
  let session := Session.start Tree.host sampleTree (Builtin.catalog Tree.host).1
  match session.configure Tree.host sampleTree preferences with
  | (session,_,.ok _) => .ok ⟨sampleTree,session⟩
  | (_,_,.error error) => .error error

def execute (console : Console) (line : String) : Console × Outcome :=
  let reply := console.session.execute console.tree line
  (⟨reply.host,reply.session⟩,reply.outcome)

def runCommands (format : OutputFormat) (console : Console) : List String → Console × List Outcome × Transcript
  | [] => (console,[],[])
  | line :: rest =>
    let (console,outcome) := console.execute line
    if outcome.isExit then (console,[outcome],outcome.print format)
    else
      let (console,outcomes,printed) := console.runCommands format rest
      (console,outcome :: outcomes,outcome.print format ++ printed)

def isBlankLine (line : String) : Bool := line.toList.all Text.isBlank

inductive Turn where
  | next (console : Console) (outcome : Option Outcome)
  | exit (console : Console) (outcome : Outcome)
  | unreadable

def turn (console : Console) : InputLine → Turn
  | none => .unreadable
  | some line =>
    if isBlankLine line then .next console none
    else
      let (console,outcome) := console.execute line
      if outcome.isExit then .exit console outcome else .next console (some outcome)

def promptText (console : Console) : Printed := .out console.session.preferences.prompt

def unreadableText : String := "Error: failed to read input: " ++ notText ++ "\n"

/-- Reads lines up to the first that asks to exit. The answer tells whether all lines read were texts. -/
def readLines (format : OutputFormat) (console : Console) :
    List InputLine → Console × List Outcome × Transcript × Bool
  | [] => (console,[],[console.promptText],true)
  | line :: rest =>
    match console.turn line with
    | .unreadable => (console,[],[console.promptText,.err unreadableText],false)
    | .exit after outcome => (after,[outcome],console.promptText :: outcome.print format,true)
    | .next after outcome =>
      let (last,outcomes,printed,readable) := after.readLines format rest
      (last,outcome.toList ++ outcomes,
        console.promptText :: ((outcome.map (·.print format)).getD [] ++ printed),readable)

end Console

/-- The bytes of each line, the line feed and a carriage return before it left out; a rest without a line feed
is a line as it stands. -/
def lineBytes : List UInt8 → List (List UInt8)
  | [] => []
  | byte :: rest =>
    if byte = 10 then [] :: lineBytes rest
    else if byte = 13 ∧ rest.head? = some 10 then lineBytes rest
    else match lineBytes rest with
      | [] => [[byte]]
      | line :: more => (byte :: line) :: more

def inputLines (bytes : ByteArray) : List InputLine :=
  (lineBytes bytes.toList).map fun line => String.fromUTF8? ⟨line.toArray⟩

structure RunResult where
  code : Nat
  printed : Transcript

namespace Program

def failure (message : String) : RunResult := ⟨1,[.err ("Error: " ++ message ++ "\n")]⟩

def batch (format : OutputFormat) (console : Console) (commands : List String) : RunResult :=
  let (_,outcomes,printed) := console.runCommands format commands
  ⟨if outcomes.all Outcome.success then 0 else 1,printed⟩

def interactive (format : OutputFormat) (console : Console) (lines : List InputLine) : RunResult :=
  let (_,_,printed,readable) := console.readLines format lines
  ⟨if readable then 0 else 1,printed⟩

def prepare (path : String) (file : File) : Except ConsoleError Console :=
  match Preferences.load path file with
  | .ok preferences => Console.start preferences
  | .error error => .error (.config error)

def run (arguments : Arguments) (path : String) (file : File) (input : ByteArray) : RunResult :=
  match prepare path file with
  | .error error => failure error.message
  | .ok console =>
    if arguments.isBatch then batch arguments.output console arguments.commands
    else interactive arguments.output console (inputLines input)

end Program
end TreeConsole
