import TreeConsole.Proofs.Shape.Conformance

/-! Comma lists and runs of tokens.
The elements of an array are given to an option as one text with commas and to an argument as tokens. Elements that can be
told apart between commas are made into the same value either way.
-/
namespace TreeConsole
variable {shape : Shape} {shapes : Shapes} {choices elements : List String} {text element : String}

/-- A text that can stand between commas: not empty, with no blank at either end and no comma inside. -/
structure Listable (text : String) : Prop where
  nonempty : text ≠ ""
  solid : ∀ c, text.toList.head? = some c ∨ text.toList.getLast? = some c → Text.isBlank c = false
  noComma : ',' ∉ text.toList

theorem listable_iff : Listable text ↔ text ≠ "" ∧ Text.trim text.toList = text.toList ∧ ',' ∉ text.toList := by
  rw [Text.trim_eq_self_iff]
  exact ⟨fun listable => ⟨listable.nonempty,listable.solid,listable.noComma⟩,fun ⟨nonempty,solid,free⟩ => ⟨nonempty,solid,free⟩⟩

instance : Decidable (Listable text) := decidable_of_iff _ listable_iff.symm

theorem commaParts_intercalate (some : elements ≠ []) (listable : ∀ element ∈ elements, Listable element) :
    commaParts (",".intercalate elements) = elements := by
  have comma : ",".toList = [','] := rfl
  have free : ∀ part ∈ elements.map String.toList, ',' ∉ part :=
    List.forall_mem_map.mpr fun element member => (listable element member).noComma
  have trimmed : (elements.map String.toList).map Text.trim = elements.map String.toList := by
    rw [List.map_map]
    exact List.map_congr_left fun element member => (listable_iff.mp (listable element member)).2.1
  have nonempty : ∀ part ∈ elements.map String.toList, part ≠ [] :=
    List.forall_mem_map.mpr fun element member => mt String.toList_eq_nil_iff.mp (listable element member).nonempty
  rw [commaParts,String.toList_intercalate,comma,Text.pieces_intercalate (by simpa using some) free,
    Text.clean_eq trimmed nonempty,List.map_map]
  exact (List.map_congr_left fun element _ => String.ofList_toList).trans (List.map_id elements)

namespace Shape

theorem coerceText_intercalate (many : shape.isArray = true) (some : elements ≠ [])
    (listable : ∀ element ∈ elements, Listable element) :
    shape.coerceText choices (",".intercalate elements) = shape.coerceTokens choices elements := by
  have tokens : shape.coerceTokens choices elements = shape.coerceAll choices elements := if_pos many
  rw [coerceText,if_pos many,Text.splitClean_comma,commaParts_intercalate some listable,tokens]

/-- One element is a list of itself for an array, and its own token for any other shape. -/
theorem coerceText_element (listable : Listable element) :
    shape.coerceText choices element = shape.coerceTokens choices [element] := by
  cases many : shape.isArray with
  | true =>
    have alone := @coerceText_intercalate shape choices [element] many (List.cons_ne_nil _ _) (by simpa using listable)
    rwa [String.intercalate_singleton] at alone
  | false => simp only [coerceText,coerceTokens,many,Bool.false_eq_true,if_false]

theorem coerceAll_eq_none_iff :
    shape.coerceAll choices elements = none ↔ ∃ element ∈ elements, shape.coerce choices element = none := by
  rw [coerceAll,Option.map_eq_none_iff]
  induction elements with
  | nil => simp
  | cons element rest ih =>
    rw [List.mapM_cons,List.exists_mem_cons_iff,← ih]
    cases shape.coerce choices element with
    | none => simp
    | some v => cases rest.mapM (shape.coerce choices) <;> simp

theorem coerceTokens_eq_none_iff (alike : shape.isArray = true ∨ ∃ element, elements = [element]) :
    shape.coerceTokens choices elements = none ↔ ∃ element ∈ elements, shape.coerce choices element = none := by
  unfold coerceTokens
  split
  next => exact coerceAll_eq_none_iff
  next single =>
    obtain ⟨element,rfl⟩ := alike.resolve_left single
    simp

end Shape

namespace Shapes

/-- Where every shape takes several elements, or there is only one, the elements joined by commas are coerced to what the
elements themselves are coerced to as tokens: nothing if every shape refuses one of them. -/
theorem coerceText_eq_coerceTokens (some : elements ≠ []) (listable : ∀ element ∈ elements, Listable element)
    (alike : (∀ shape ∈ shapes, shape.isArray = true) ∨ elements.length = 1) :
    coerceText shapes choices (",".intercalate elements) = coerceTokens shapes choices elements ∧
    (coerceTokens shapes choices elements = none ↔
      ∀ shape ∈ shapes, ∃ element ∈ elements, shape.coerce choices element = none) := by
  have alike : ∀ shape ∈ shapes, shape.isArray = true ∨ ∃ element, elements = [element] := by
    rw [List.length_eq_one_iff] at alike
    exact fun shape member => alike.imp_left fun many => many shape member
  have same : ∀ shape ∈ shapes,
      shape.coerceText choices (",".intercalate elements) = shape.coerceTokens choices elements := by
    intro shape member
    rcases alike shape member with many | ⟨element,rfl⟩
    · exact Shape.coerceText_intercalate many some listable
    · rw [String.intercalate_singleton]
      exact Shape.coerceText_element (listable element List.mem_cons_self)
  refine ⟨?_,?_⟩
  · rw [coerceText,coerceTokens,← List.head?_filterMap,← List.head?_filterMap,List.filterMap_congr same]
  · rw [coerceTokens,List.findSome?_eq_none_iff]
    exact forall₂_congr fun shape member => Shape.coerceTokens_eq_none_iff (alike shape member)

/-- Integers, or else any of the choices. -/
def levels : Shapes := [⟨.int,.zero,.zero,true⟩,⟨.choice,.zero,.zero,true⟩]

/-- The first shape that accepts all elements makes the value; no shape may accept them; and one element may be no array. -/
theorem coerceText_eq_coerceTokens_levels :
    coerceText levels ["low","4"] "4,+1" = some (.list [.int 4,.int 1]) ∧
    coerceText levels ["low","4"] "4,low" = some (.list [.string "4",.string "low"]) ∧
    coerceText levels ["low","4"] "9,low" = none ∧
    coerceText [⟨.bool,.zero,.zero,false⟩] [] "Off" = some (.bool false) := by
  have several {elements : List String} (some : elements ≠ []) (listable : ∀ element ∈ elements, Listable element) :
      coerceText levels ["low","4"] (",".intercalate elements) = coerceTokens levels ["low","4"] elements ∧
      (coerceTokens levels ["low","4"] elements = none ↔
        ∀ shape ∈ levels, ∃ element ∈ elements, shape.coerce ["low","4"] element = none) :=
    coerceText_eq_coerceTokens some listable (.inl (by decide))
  have one := @coerceText_eq_coerceTokens [⟨.bool,.zero,.zero,false⟩] [] ["Off"] (by decide) (by decide) (.inr rfl)
  refine ⟨?_,?_,?_,one.1⟩
  · exact (@several ["4","+1"] (by decide) (by decide)).1
  · exact (@several ["4","low"] (by decide) (by decide)).1
  · exact (@several ["9","low"] (by decide) (by decide)).1

end Shapes
end TreeConsole
