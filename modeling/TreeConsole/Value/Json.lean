import TreeConsole.Text.Json
import TreeConsole.Value

/-! Values as JSON texts.
Each value is an object with its kind under `type` and, except for `null`, its content under `value`.
Numbers that are not finite have the content `null`.
-/
namespace TreeConsole.Value

def tagged (kind content : String) : String :=
  "\x7b\"type\":\"" ++ kind ++ "\",\"value\":" ++ content ++ "\x7d"

def floatJson (x : Binary64) : String :=
  match x.dataText? with
  | some cs => String.ofList cs
  | none => "null"

mutual
def json : Value → String
  | .null => "\x7b\"type\":\"null\"\x7d"
  | .bool b => tagged "bool" (boolText b)
  | .int i => tagged "int" (int64Text i)
  | .float x => tagged "float" (floatJson x)
  | .string s => tagged "string" (Json.quote s)
  | .list items => tagged "list" ("[" ++ ",".intercalate (jsonAll items) ++ "]")
  | .object id => tagged "object" (natText id)
def jsonAll : List Value → List String
  | [] => []
  | v :: rest => json v :: jsonAll rest
end

end TreeConsole.Value
