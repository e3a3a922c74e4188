import TreeConsole.Number.Notation

/-! Values.
What commands and methods receive and answer: nothing, truth values, integers of 64 bits, binary
floating-point numbers, strings, lists, and handles of objects that a host owns.
-/
namespace TreeConsole

/-- The number by which a host names one of its objects. -/
abbrev Handle := Nat

inductive Value where
  | null
  | bool (b : Bool)
  | int (i : Int64)
  | float (x : Binary64)
  | string (s : String)
  | list (items : List Value)
  | object (id : Handle)

namespace Value

def natText (n : Nat) : String := String.ofList (Number.digits n)

def boolText (b : Bool) : String := if b then "true" else "false"

def int64Text (i : Int64) : String := String.ofList (Number.intText i.toInt)

def handleText (id : Handle) : String := "<object#" ++ natText id ++ ">"

mutual
/-- A value for people to read; `describe` names the objects in it. -/
def render (describe : Handle → String) : Value → String
  | .null => "null"
  | .bool b => boolText b
  | .int i => int64Text i
  | .float x => String.ofList x.plainText
  | .string s => s
  | .list items => "[" ++ ", ".intercalate (renderAll describe items) ++ "]"
  | .object id => describe id
def renderAll (describe : Handle → String) : List Value → List String
  | [] => []
  | v :: rest => render describe v :: renderAll describe rest
end

def display (v : Value) : String := v.render handleText

def asString? : Value → Option String
  | .string s => some s
  | _ => none

def asInt? : Value → Option Int64
  | .int i => some i
  | _ => none

/-- A number as a floating-point number; integers are rounded to the nearest. -/
def asFloat? : Value → Option Binary64
  | .float x => some x
  | .int i => some (Binary64.ofInt i.toInt)
  | _ => none

def asBool? : Value → Option Bool
  | .bool b => some b
  | _ => none

def asList? : Value → Option (List Value)
  | .list items => some items
  | _ => none

def asObject? : Value → Option Handle
  | .object id => some id
  | _ => none

end Value
end TreeConsole
