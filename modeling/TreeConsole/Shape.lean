import TreeConsole.Value.Literal

/-! Shapes of values.
A shape is one accepted form of a slot: a kind, a range of numbers and whether the slot takes many values. It
is written `kind`, `kind(low:high)`, `kind...` or `kind(low:high)...`. Integers, floating-point numbers and
strings may have a range, which bounds the number or the length; the range from zero to zero is no range.
-/
namespace TreeConsole

inductive Kind where
  | int
  | float
  | string
  | bool
  | choice
deriving DecidableEq

namespace Kind

def name : Kind → String
  | .int => "int"
  | .float => "float"
  | .string => "string"
  | .bool => "bool"
  | .choice => "choice"

def ofName? : String → Option Kind
  | "int" => some .int
  | "float" => some .float
  | "string" => some .string
  | "bool" => some .bool
  | "choice" => some .choice
  | _ => none

def ranges : Kind → Bool
  | .int | .float | .string => true
  | .bool | .choice => false

theorem ofName?_name (kind : Kind) : ofName? kind.name = some kind := by cases kind <;> rfl

end Kind

structure Shape where
  kind : Kind
  min : Binary64
  max : Binary64
  isArray : Bool
deriving DecidableEq

inductive ShapeError where
  | empty
  | unknownKind (name : String)
  | malformed (text : String)
  | invalidBound (text bound : String)
  | missingUpperBound (text : String)
  | invertedRange (text : String)
  | rangeNotSupported (kind : Kind)
deriving DecidableEq

def ShapeError.message : ShapeError → String
  | .empty => "empty type descriptor"
  | .unknownKind name => "unknown type '" ++ name ++ "'"
  | .malformed text => "malformed type descriptor '" ++ text ++ "'"
  | .invalidBound text bound => "invalid range bound '" ++ bound ++ "' in '" ++ text ++ "'"
  | .missingUpperBound text => "missing upper bound in '" ++ text ++ "'"
  | .invertedRange text => "lower bound exceeds upper bound in '" ++ text ++ "'"
  | .rangeNotSupported kind => "type '" ++ kind.name ++ "' does not accept a range"

namespace Shape
open Text

def hasRange (shape : Shape) : Bool := !(shape.min.isZero && shape.max.isZero)

def within (shape : Shape) (x : Binary64) : Bool :=
  !shape.hasRange || (shape.min.le x && x.le shape.max)

def boundText (x : Binary64) : String := String.ofList x.plainText

def text (shape : Shape) : String :=
  shape.kind.name
    ++ (if shape.hasRange then "(" ++ boundText shape.min ++ ":" ++ boundText shape.max ++ ")" else "")
    ++ (if shape.isArray then "..." else "")

def takeDots (cs : List Char) : List Char × Bool :=
  match cs.reverse with
  | '.' :: '.' :: '.' :: body => (body.reverse,true)
  | _ => (cs,false)

/-- The name before the first parenthesis and the trimmed text inside the only pair. -/
def takeRange (cs : List Char) : Option (List Char × Option (List Char)) :=
  match cut '(' cs with
  | none => some (cs,none)
  | some (name,after) =>
    match closing ')' after with
    | none => none
    | some inner => if '(' ∈ inner ∨ ')' ∈ inner then none else some (name,some (trim inner))

def readBound (text : String) (cs : List Char) : Except ShapeError Binary64 :=
  match Value.readFinite? cs with
  | some x => .ok x
  | none => .error (.invalidBound text (String.ofList cs))

/-- The bounds of a range; an open lower bound is zero, an open upper bound is refused. -/
def readRange (text : String) (kind : Kind) (inner : List Char) : Except ShapeError (Binary64 × Binary64) := do
  if !kind.ranges then throw (.rangeNotSupported kind)
  match cut ':' inner with
  | none => throw (.malformed text)
  | some (low,high) =>
    let low := trim low
    let high := trim high
    let min ← if low.isEmpty then pure Binary64.zero else readBound text low
    if high.isEmpty then throw (.missingUpperBound text)
    let max ← readBound text high
    if min.le max then pure (min,max) else throw (.invertedRange text)

def read (descriptor : String) : Except ShapeError Shape := do
  let cs := trim descriptor.toList
  if cs.isEmpty then throw .empty
  let text := String.ofList cs
  let (body,isArray) := takeDots cs
  match takeRange body with
  | none => throw (.malformed text)
  | some (name,range) =>
    if ')' ∈ name then throw (.malformed text)
    match Kind.ofName? (String.ofList name) with
    | none => throw (.unknownKind (String.ofList name))
    | some kind =>
      match range with
      | none | some [] => pure ⟨kind,.zero,.zero,isArray⟩
      | some inner =>
        let (min,max) ← readRange text kind inner
        pure ⟨kind,min,max,isArray⟩

end Shape

abbrev Shapes := List Shape

namespace Shapes
open Text

/-- Reads the alternatives of a descriptor between bars; those that fail are reported, not kept. -/
def read (descriptor : String) : Shapes × List ShapeError :=
  ((pieces (· == '|') descriptor.toList).map fun cs => Shape.read (String.ofList cs)).foldr
    (fun result (shapes,errors) => match result with
      | .ok shape => (shape :: shapes,errors)
      | .error error => (shapes,error :: errors))
    ([],[])

def text (shapes : Shapes) : String := "|".intercalate (List.map Shape.text shapes)

def hasArray (shapes : Shapes) : Bool := List.any shapes Shape.isArray

def hasChoice (shapes : Shapes) : Bool := List.any shapes fun shape => shape.kind = .choice

end Shapes
end TreeConsole
