import TreeConsole.Shape

/-! Coercion of texts to values.
A shape accepts a text when the text reads as a value of its kind within its range; a choice must be listed.
Of the shapes of a slot the first that accepts decides. Positional tokens fill an array one by one, while the
text of an option is cut at commas first.
-/
namespace TreeConsole
open Text

/-- The spellings of a truth value, in any case. -/
def readBool? (text : String) : Option Bool :=
  match String.ofList (text.toList.map Char.toLower) with
  | "true" | "on" | "yes" | "1" => some true
  | "false" | "off" | "no" | "0" => some false
  | _ => none

namespace Shape

def coerce (shape : Shape) (choices : List String) (text : String) : Option Value :=
  match shape.kind with
  | .int =>
    (Number.readInt64? text.toList).bind fun i =>
      if shape.within (Binary64.ofInt i.toInt) then some (.int i) else none
  | .float =>
    (Value.readFinite? text.toList).bind fun x => if shape.within x then some (.float x) else none
  | .string => if shape.within (Binary64.ofNat text.length) then some (.string text) else none
  | .bool => (readBool? text).map .bool
  | .choice => if text ∈ choices then some (.string text) else none

def coerceAll (shape : Shape) (choices texts : List String) : Option Value :=
  (texts.mapM (shape.coerce choices)).map .list

/-- Coerces the tokens of one positional slot; a shape that is no array takes exactly one. -/
def coerceTokens (shape : Shape) (choices tokens : List String) : Option Value :=
  if shape.isArray then shape.coerceAll choices tokens
  else match tokens with
    | [token] => shape.coerce choices token
    | _ => none

def coerceText (shape : Shape) (choices : List String) (text : String) : Option Value :=
  if shape.isArray then shape.coerceAll choices (splitClean text ",") else shape.coerce choices text

end Shape

namespace Shapes

def coerceTokens (shapes : Shapes) (choices tokens : List String) : Option Value :=
  List.findSome? (fun shape => shape.coerceTokens choices tokens) shapes

def coerceText (shapes : Shapes) (choices : List String) (text : String) : Option Value :=
  List.findSome? (fun shape => shape.coerceText choices text) shapes

def expectation (shapes : Shapes) (choices : List String) : String :=
  if shapes.hasChoice then shapes.text ++ " (one of: " ++ ", ".intercalate choices ++ ")" else shapes.text

end Shapes
end TreeConsole
