import TreeConsole.Proofs.Shape.Descriptor
import TreeConsole.Proofs.Text.Pieces
import TreeConsole.Shape.Coercion
import Mathlib.Data.List.Forall2

/-! Values and the shapes that they conform to.
What a shape makes of texts conforms to it: a value of its kind within its range, or for an array one such value for each
text. Of the shapes of a slot the first that accepts the texts is chosen.
-/
namespace TreeConsole
variable {shape : Shape} {shapes : Shapes} {choices texts elements : List String} {text : String} {v : Value}

/-- The trimmed parts of a text between its commas, without the empty ones. -/
def commaParts (text : String) : List String := (Text.clean (Text.pieces (· == ',') text.toList)).map String.ofList

theorem Text.splitClean_comma (text : String) : Text.splitClean text "," = commaParts text := Text.splitClean_single text ','

namespace Shape

/-- A value of a shape's kind that passes its range test, a string by its length; of a choice, one of those listed. -/
inductive Fits (shape : Shape) (choices : List String) : Value → Prop
  | int (i : Int64) (isInt : shape.kind = .int) (within : shape.within (.ofInt i.toInt)) : Fits shape choices (.int i)
  | float (x : Binary64) (isFloat : shape.kind = .float) (finite : x.isFinite) (within : shape.within x) :
      Fits shape choices (.float x)
  | string (s : String) (isString : shape.kind = .string) (within : shape.within (.ofNat s.length)) :
      Fits shape choices (.string s)
  | bool (b : Bool) (isBool : shape.kind = .bool) : Fits shape choices (.bool b)
  | choice (s : String) (isChoice : shape.kind = .choice) (listed : s ∈ choices) : Fits shape choices (.string s)

/-- A value that fits, or for an array a list with one such value for each of the elements' texts. -/
inductive Conforms (shape : Shape) (choices elements : List String) : Value → Prop
  | single {v : Value} (single : shape.isArray = false) (fits : shape.Fits choices v) : Conforms shape choices elements v
  | many {vs : List Value} (many : shape.isArray = true)
      (each : List.Forall₂ (fun text v => shape.coerce choices text = some v ∧ shape.Fits choices v) elements vs) :
      Conforms shape choices elements (.list vs)

theorem coerce_fits (coerced : shape.coerce choices text = some v) : shape.Fits choices v := by
  unfold coerce at coerced
  split at coerced
  next isInt =>
    obtain ⟨i,_,ranged⟩ := Option.bind_eq_some_iff.mp coerced
    obtain ⟨within,made⟩ := Option.ite_none_right_eq_some.mp ranged
    cases made
    exact .int i isInt within
  next isFloat =>
    obtain ⟨x,read,ranged⟩ := Option.bind_eq_some_iff.mp coerced
    obtain ⟨within,made⟩ := Option.ite_none_right_eq_some.mp ranged
    cases made
    exact .float x isFloat (Binary64.isFinite_of_readFinite? read) within
  next isString =>
    obtain ⟨within,made⟩ := Option.ite_none_right_eq_some.mp coerced
    cases made
    exact .string text isString within
  next isBool =>
    obtain ⟨b,_,rfl⟩ := Option.map_eq_some_iff.mp coerced
    exact .bool b isBool
  next isChoice =>
    obtain ⟨listed,made⟩ := Option.ite_none_right_eq_some.mp coerced
    cases made
    exact .choice text isChoice listed

theorem coerceAll_conforms (many : shape.isArray = true) (coerced : shape.coerceAll choices texts = some v) :
    shape.Conforms choices texts v := by
  obtain ⟨vs,mapped,rfl⟩ := Option.map_eq_some_iff.mp coerced
  refine .many many ?_
  clear coerced
  induction texts generalizing vs with
  | nil => cases mapped; exact .nil
  | cons text rest ih =>
    rw [List.mapM_cons] at mapped
    obtain ⟨first,read,mapped⟩ := Option.bind_eq_some_iff.mp mapped
    obtain ⟨others,behind,made⟩ := Option.bind_eq_some_iff.mp mapped
    cases made
    exact .cons ⟨read,coerce_fits read⟩ (ih others behind)

theorem coerceTokens_conforms (coerced : shape.coerceTokens choices texts = some v) : shape.Conforms choices texts v := by
  unfold coerceTokens at coerced
  split at coerced
  next many => exact coerceAll_conforms many coerced
  next single =>
    split at coerced
    · exact .single (by simpa using single) (coerce_fits coerced)
    · cases coerced

theorem coerceText_conforms (coerced : shape.coerceText choices text = some v) :
    shape.Conforms choices (commaParts text) v := by
  rw [coerceText,Text.splitClean_comma] at coerced
  split at coerced
  next many => exact coerceAll_conforms many coerced
  next single => exact .single (by simpa using single) (coerce_fits coerced)

end Shape

/-- The value that the first of some shapes makes which accepts the texts; it conforms to that shape. -/
def Shapes.Chosen (accept : Shape → Option Value) (shapes : Shapes) (choices elements : List String) (v : Value) : Prop :=
  ∃ before shape after, shapes = before ++ shape :: after ∧ (∀ earlier ∈ before, accept earlier = none) ∧
    accept shape = some v ∧ shape.Conforms choices elements v

namespace Shapes

theorem coerceTokens_chosen (coerced : coerceTokens shapes choices texts = some v) :
    Chosen (fun shape => shape.coerceTokens choices texts) shapes choices texts v := by
  obtain ⟨before,shape,after,whole,accepted,refused⟩ := List.findSome?_eq_some_iff.mp coerced
  exact ⟨before,shape,after,whole,refused,accepted,Shape.coerceTokens_conforms accepted⟩

theorem coerceText_chosen (coerced : coerceText shapes choices text = some v) :
    Chosen (fun shape => shape.coerceText choices text) shapes choices (commaParts text) v := by
  obtain ⟨before,shape,after,whole,accepted,refused⟩ := List.findSome?_eq_some_iff.mp coerced
  exact ⟨before,shape,after,whole,refused,accepted,Shape.coerceText_conforms accepted⟩

end Shapes
end TreeConsole
