import TreeConsole.Signature

/-! Declarations of signatures.
A signature is declared clause by clause: a usage line, arguments, options, and the choices of the slot that was
declared last. Building it reads every type descriptor. A slot keeps the alternatives that can be read, and the
declaration fails when none can, when names repeat, when a flag does not look like one, or when a choice has
nothing to choose from.
-/
namespace TreeConsole

inductive SlotKind where
  | argument
  | option
deriving DecidableEq

def SlotKind.name : SlotKind → String
  | .argument => "argument"
  | .option => "option"

inductive DefinitionError where
  | emptyName
  | invalidSlot (command slot descriptor : String) (reasons : List ShapeError)
  | invalidFlag (command flag : String)
  | duplicate (command : String) (kind : SlotKind) (name : String)
  | missingChoices (command slot : String)
deriving DecidableEq

def DefinitionError.message : DefinitionError → String
  | .emptyName => "command name must not be empty"
  | .invalidSlot command slot descriptor reasons =>
    "invalid type '" ++ descriptor ++ "' for '" ++ slot ++ "' in command '" ++ command ++ "': "
      ++ (if reasons.isEmpty then "no type given" else "; ".intercalate (reasons.map ShapeError.message))
  | .invalidFlag command flag => "option '" ++ flag ++ "' in command '" ++ command ++ "' must start with '-'"
  | .duplicate command kind name => "duplicate " ++ kind.name ++ " '" ++ name ++ "' in command '" ++ command ++ "'"
  | .missingChoices command slot =>
    "choice slot '" ++ slot ++ "' in command '" ++ command ++ "' declares no choices"

/-- A slot as declared, its descriptor unread. -/
structure SlotDraft where
  name : String
  /-- Absent for a presence flag. -/
  descriptor : Option String
  description : String
  default : Value
  choices : List String

structure Declaration where
  name : String
  description : String
  usage : Option String
  arguments : List SlotDraft
  options : List SlotDraft
  last : SlotKind

inductive Clause where
  | usage (text : String)
  | argument (name descriptor description : String)
  | option (flag : String) (descriptor : Option String) (description : String) (default : Value)
  | choices (values : List String)

/-- A presence flag, false unless given. -/
def Clause.flag (flag description : String) : Clause := .option flag none description (.bool false)

namespace Declaration

def start (name description : String) : Declaration := ⟨name,description,none,[],[],.argument⟩

def choose (values : List String) (slots : List SlotDraft) : List SlotDraft :=
  match slots.getLast? with
  | some slot => slots.dropLast ++ [{ slot with choices := values }]
  | none => []

def add (d : Declaration) : Clause → Declaration
  | .usage text => { d with usage := some text }
  | .argument name descriptor description =>
    { d with arguments := d.arguments ++ [⟨name,some descriptor,description,.null,[]⟩],last := .argument }
  | .option flag descriptor description default =>
    { d with options := d.options ++ [⟨flag,descriptor,description,default,[]⟩],last := .option }
  | .choices values =>
    match d.last with
    | .argument => { d with arguments := choose values d.arguments }
    | .option => { d with options := choose values d.options }

def ofClauses (name description : String) (clauses : List Clause) : Declaration :=
  clauses.foldl add (start name description)

/-- The shapes of a slot, none for a presence flag. -/
def readSlot (command : String) (draft : SlotDraft) : Except DefinitionError Shapes :=
  match draft.descriptor with
  | none => pure []
  | some descriptor =>
    let (shapes,errors) := Shapes.read descriptor
    if shapes.isEmpty then throw (.invalidSlot command draft.name descriptor errors)
    else if Shapes.hasChoice shapes && draft.choices.isEmpty then throw (.missingChoices command draft.name)
    else pure shapes

def looksLikeFlag (flag : String) : Bool :=
  match flag.toList with
  | '-' :: _ :: _ => true
  | _ => false

def readArguments (command : String) (seen : List String) :
    List SlotDraft → Except DefinitionError (List ArgumentSlot)
  | [] => pure []
  | draft :: rest => do
    if draft.name ∈ seen then throw (.duplicate command .argument draft.name)
    let shapes ← readSlot command draft
    let more ← readArguments command (draft.name :: seen) rest
    pure (⟨draft.name,draft.description,shapes,draft.choices⟩ :: more)

/-- Reads option slots whose flags are flags and differ from those seen before. -/
def readOptions (command : String) (seen : List String) :
    List SlotDraft → Except DefinitionError (List OptionSlot)
  | [] => pure []
  | draft :: rest => do
    if !looksLikeFlag draft.name then throw (.invalidFlag command draft.name)
    if draft.name ∈ seen then throw (.duplicate command .option draft.name)
    let shapes ← readSlot command draft
    let more ← readOptions command (draft.name :: seen) rest
    pure (⟨draft.name,draft.description,shapes,draft.default,draft.choices⟩ :: more)

def build (d : Declaration) : Except DefinitionError Signature := do
  let command := Text.trimmed d.name
  if command.isEmpty then throw .emptyName
  let arguments ← readArguments command [] d.arguments
  let options ← readOptions command [] d.options
  pure ⟨command,d.description,d.usage.getD (Signature.usageOf command arguments options),arguments,options⟩

end Declaration
end TreeConsole
