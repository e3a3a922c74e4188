import TreeConsole.Shape.Coercion

/-! Signatures of commands.
A signature names a command, its positional arguments in order and its options, and says which shapes each of
them accepts. An option without shapes is a presence flag. Help texts and usage lines are drawn from it.
-/
namespace TreeConsole

/-- Fills a text with spaces on the right up to a number of characters; a longer text is left alone. -/
def Text.padRight (width : Nat) (s : String) : String := s ++ String.ofList (List.replicate (width - s.length) ' ')

structure ArgumentSlot where
  name : String
  description : String
  shapes : Shapes
  choices : List String

structure OptionSlot where
  flag : String
  description : String
  shapes : Shapes
  /-- The value of an option that the input leaves out. -/
  default : Value
  choices : List String

structure Signature where
  name : String
  description : String
  usage : String
  arguments : List ArgumentSlot
  options : List OptionSlot

/-- A presence flag takes no value. -/
def OptionSlot.isPresence (slot : OptionSlot) : Bool := slot.shapes.isEmpty

namespace ArgumentSlot

def usageText (slot : ArgumentSlot) : String :=
  " <" ++ slot.name ++ (if Shapes.hasArray slot.shapes then "..." else "") ++ ">"

def helpLine (slot : ArgumentSlot) : String :=
  "\n  " ++ Text.padRight 16 slot.name ++ " " ++ Text.padRight 16 (Shapes.text slot.shapes) ++ " "
    ++ slot.description
    ++ (if slot.choices.isEmpty then "" else " (" ++ ", ".intercalate slot.choices ++ ")")

end ArgumentSlot

namespace OptionSlot

def usageText (slot : OptionSlot) : String :=
  if slot.isPresence then " [" ++ slot.flag ++ "]"
  else " [" ++ slot.flag ++ " <" ++ Shapes.text slot.shapes ++ ">]"

def helpLine (slot : OptionSlot) : String :=
  "\n  " ++ Text.padRight 16 slot.flag ++ " "
    ++ Text.padRight 16 (if slot.isPresence then "flag" else Shapes.text slot.shapes) ++ " "
    ++ slot.description ++ " (default: " ++ slot.default.display ++ ")"

end OptionSlot

namespace Signature

def option? (sig : Signature) (flag : String) : Option OptionSlot :=
  sig.options.find? fun slot => slot.flag == flag

def usageOf (name : String) (arguments : List ArgumentSlot) (options : List OptionSlot) : String :=
  name ++ String.join (arguments.map ArgumentSlot.usageText) ++ String.join (options.map OptionSlot.usageText)

/-- A part of the help text with its heading, or nothing when it has no lines. -/
def helpSection (heading : String) (lines : List String) : String :=
  if lines.isEmpty then "" else "\n\n" ++ heading ++ String.join lines

def helpText (sig : Signature) : String :=
  sig.name ++ " - " ++ sig.description ++ "\nUsage: " ++ sig.usage
    ++ helpSection "Arguments:" (sig.arguments.map ArgumentSlot.helpLine)
    ++ helpSection "Options:" (sig.options.map OptionSlot.helpLine)

end Signature
end TreeConsole
