import TreeConsole.Signature
import TreeConsole.Table

/-! Binding tokens to a signature.
Options are taken out first, wherever they stand: `flag`, `flag=value`, or a flag and the token after it. The
other tokens fill the arguments from left to right. An argument that takes many values gets all tokens but one
for each argument after it. Tokens left over stay in the invocation as typed.
-/
namespace TreeConsole

structure Invocation where
  command : String
  arguments : Table Value
  /-- Every declared option, from the input or by default. -/
  options : Table Value
  raw : List String
  /-- The text after the command's name, before it was cut into tokens. -/
  line : String

namespace Invocation

def argString? (inv : Invocation) (name : String) : Option String :=
  (inv.arguments.get? name).bind Value.asString?

def flag (inv : Invocation) (name : String) : Bool :=
  ((inv.options.get? name).bind Value.asBool?).getD false

def optionInt? (inv : Invocation) (name : String) : Option Int64 := (inv.options.get? name).bind Value.asInt?

def optionFloat? (inv : Invocation) (name : String) : Option Binary64 :=
  (inv.options.get? name).bind Value.asFloat?

end Invocation

inductive BindingError where
  | missingArgument (command argument usage : String)
  | missingOptionValue (command flag expected : String)
  | invalidValue (command slot value expected : String)
deriving DecidableEq

def BindingError.message : BindingError → String
  | .missingArgument command argument usage =>
    command ++ ": missing argument '" ++ argument ++ "'. Usage: " ++ usage
  | .missingOptionValue command flag expected =>
    command ++ ": option '" ++ flag ++ "' expects a value of type " ++ expected
  | .invalidValue command slot value expected =>
    command ++ ": invalid value '" ++ value ++ "' for '" ++ slot ++ "', expected " ++ expected

/-- Positional tokens and option values, each in the order of the input. -/
structure Scan where
  positional : List String
  supplied : List (String × Value)

namespace Signature

def optionAt (sig : Signature) (token : String) : Option (OptionSlot × Option String) :=
  let inline := (Text.cut '=' token.toList).bind fun (flag,value) =>
    (sig.option? (String.ofList flag)).map fun slot => (slot,some (String.ofList value))
  inline.or ((sig.option? token).map fun slot => (slot,none))

def invalidOption (sig : Signature) (slot : OptionSlot) (text expected : String) : BindingError :=
  .invalidValue sig.name slot.flag text expected

/-- The value of an option from its text; a presence flag reads a truth value. -/
def optionValue (sig : Signature) (slot : OptionSlot) (text : String) : Except BindingError Value :=
  if slot.isPresence then
    match readBool? text with
    | some b => .ok (.bool b)
    | none => .error (sig.invalidOption slot text "bool")
  else
    match Shapes.coerceText slot.shapes slot.choices text with
    | some v => .ok v
    | none => .error (sig.invalidOption slot text (Shapes.expectation slot.shapes slot.choices))

/-- Tells options and positional tokens apart. -/
def scan (sig : Signature) : List String → Except BindingError Scan
  | [] => pure ⟨[],[]⟩
  | token :: rest =>
    match sig.optionAt token with
    | none => do
      let more ← sig.scan rest
      pure { more with positional := token :: more.positional }
    | some (slot,some text) => do
      let v ← sig.optionValue slot text
      let more ← sig.scan rest
      pure { more with supplied := (slot.flag,v) :: more.supplied }
    | some (slot,none) =>
      if slot.isPresence then do
        let more ← sig.scan rest
        pure { more with supplied := (slot.flag,.bool true) :: more.supplied }
      else match rest with
        | [] => throw (.missingOptionValue sig.name slot.flag (Shapes.expectation slot.shapes slot.choices))
        | text :: rest => do
          let v ← sig.optionValue slot text
          let more ← sig.scan rest
          pure { more with supplied := (slot.flag,v) :: more.supplied }

/-- How many of the available tokens an argument takes when `later` arguments follow it. -/
def share (slot : ArgumentSlot) (available later : Nat) : Nat :=
  if Shapes.hasArray slot.shapes then max (available - later) 1 else 1

def fill (sig : Signature) : List ArgumentSlot → List String → Except BindingError (List (String × Value))
  | [],_ => pure []
  | slot :: later,tokens =>
    if tokens.isEmpty then throw (.missingArgument sig.name slot.name sig.usage)
    else
      let count := share slot tokens.length later.length
      match Shapes.coerceTokens slot.shapes slot.choices (tokens.take count) with
      | none =>
        throw (.invalidValue sig.name slot.name (" ".intercalate (tokens.take count))
          (Shapes.expectation slot.shapes slot.choices))
      | some v => do
        let more ← sig.fill later (tokens.drop count)
        pure ((slot.name,v) :: more)

/-- A table from entries in order; a later entry replaces an earlier one of the same key. -/
def tabulate (start : Table Value) (entries : List (String × Value)) : Table Value :=
  entries.foldl (fun table entry => table.insert entry.1 entry.2) start

def defaults (sig : Signature) : Table Value :=
  tabulate .empty (sig.options.map fun slot => (slot.flag,slot.default))

def bind (sig : Signature) (tokens : List String) : Except BindingError Invocation := do
  let found ← sig.scan tokens
  let arguments ← sig.fill sig.arguments found.positional
  pure ⟨sig.name,tabulate .empty arguments,tabulate sig.defaults found.supplied,tokens," ".intercalate tokens⟩

end Signature
end TreeConsole
