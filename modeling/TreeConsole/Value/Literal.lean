import TreeConsole.Text.Token
import TreeConsole.Value

/-! Literals in call arguments.
A text between two equal quotes is the string between them, as it stands. The words `true`, `false` and
`null` are values, then integers are tried, then finite floating-point numbers; anything else is a string.
-/
namespace TreeConsole.Value
open Text

def unquote? (cs : List Char) : Option (List Char) :=
  match cs with
  | quote :: rest => if isQuote quote then closing quote rest else none
  | [] => none

def readFinite? (cs : List Char) : Option Binary64 := (Binary64.read? cs).filter Binary64.isFinite

def ofTrimmed (cs : List Char) : Value :=
  match unquote? cs with
  | some inner => .string (String.ofList inner)
  | none =>
    match String.ofList cs with
    | "true" => .bool true
    | "false" => .bool false
    | "null" => .null
    | text =>
      match Number.readInt64? cs,readFinite? cs with
      | some i,_ => .int i
      | none,some x => .float x
      | none,none => .string text

def ofLiteral (text : String) : Value := ofTrimmed (trim text.toList)

end TreeConsole.Value
