import TreeConsole.Preferences
import TreeConsole.Toml.Document

/-! Configuration files.
Preferences are read from the table `interpreter` of a TOML document; whatever is left out keeps its initial
value, and unknown keys are ignored. The preferences may also be given in an array, in their fixed order. A
file that does not exist leaves all preferences as they are.
-/
namespace TreeConsole

namespace Preferences
open Toml

def asText : Item → Option String
  | .string s => some s
  | _ => none

def asFlag : Item → Option Bool
  | .boolean b => some b
  | _ => none

/-- Preferences from what is given for each; what is given has to be of the right kind. -/
def ofItems (prompt printResults startPath : Option Item) : Option Preferences := do
  let prompt ← prompt.mapM asText
  let printResults ← printResults.mapM asFlag
  let startPath ← startPath.mapM asText
  pure ⟨prompt.getD initial.prompt,printResults.getD initial.printResults,startPath⟩

def ofTable (entries : Entries) : Option Preferences :=
  ofItems (entries.lookup "prompt") (entries.lookup "print_results") (entries.lookup "start_path")

def ofItem : Item → Option Preferences
  | .table _ entries | .inline entries => ofTable entries
  | .array items => ofItems items[0]? items[1]? items[2]?
  | .moment => some initial
  | _ => none

def ofDocument (entries : Entries) : Option Preferences :=
  match entries.lookup "interpreter" with
  | none => some initial
  | some item => ofItem item

end Preferences

inductive File where
  | missing
  | unreadable (reason : String)
  | content (bytes : ByteArray)

def notText : String := "stream did not contain valid UTF-8"

namespace Preferences

def load (path : String) : File → Except ConfigError Preferences
  | .missing => .ok initial
  | .unreadable reason => .error (.unreadable reason)
  | .content bytes =>
    match String.fromUTF8? bytes with
    | none => .error (.unreadable notText)
    | some text =>
      match (Toml.read? text).bind ofDocument with
      | some preferences => .ok preferences
      | none => .error (.malformed path)

end Preferences
end TreeConsole
