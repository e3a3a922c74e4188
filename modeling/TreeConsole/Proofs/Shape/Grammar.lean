import TreeConsole.Proofs.Number.Alphabet
import TreeConsole.Proofs.Shape.Descriptor

/-! The grammar of descriptors.
A descriptor is a name, a range and dots, in this order and with nothing between them; the range and the dots may be
missing. The reader looks for the first parenthesis and the first colon only, which is enough: no number has one in it.
-/
namespace TreeConsole
open Text

/-- The ways to write the range of a kind. Left out or left blank it is the range from zero to zero, and a lower bound that
is left out is zero. -/
inductive Kind.WritesRange (kind : Kind) : List Char → Binary64 → Binary64 → Prop
  | absent : WritesRange kind [] .zero .zero
  | blank {blanks : List Char} (blank : ∀ c ∈ blanks, isBlank c = true) :
      WritesRange kind ('(' :: (blanks ++ [')'])) .zero .zero
  | bounds {low high : List Char} {min max : Binary64} (ranged : kind = .int ∨ kind = .float ∨ kind = .string)
      (lower : trim low = [] ∧ min = .zero ∨ Value.readFinite? (trim low) = some min)
      (upper : Value.readFinite? (trim high) = some max) (ordered : min.le max = true) :
      WritesRange kind ('(' :: (low ++ ':' :: high ++ [')'])) min max

theorem Kind.ranges_iff {kind : Kind} : kind.ranges = true ↔ kind = .int ∨ kind = .float ∨ kind = .string := by
  cases kind <;> decide

namespace Shape
variable {kind : Kind} {shape : Shape} {descriptor text : String} {cs low high inner : List Char} {min max x : Binary64}
  {isArray : Bool} {range : Option (List Char)} {c : Char}

/-- A shape as it is written: the name of its kind, a range, and dots for an array. -/
def Writes (shape : Shape) (cs : List Char) : Prop := ∃ range, shape.kind.WritesRange range shape.min shape.max ∧
  cs = shape.kind.name.toList ++ range ++ if shape.isArray then ['.','.','.'] else []

/-! Bounds as they are written -/

theorem blank_or_symbol (bound : trim cs = [] ∨ Value.readFinite? (trim cs) = some x) (member : c ∈ cs) :
    isBlank c = true ∨ Number.isSymbol c = true := by
  refine (isBlank_or_mem_trim member).imp_right fun inside => ?_
  rcases bound with empty | found
  · rw [empty] at inside
    cases inside
  · exact Binary64.isSymbol_of_readFinite? found inside

/-- A character that is neither blank nor part of a number is not part of a bound. -/
theorem not_mem_bound (solid : isBlank c = false) (foreign : Number.isSymbol c = false)
    (bound : trim cs = [] ∨ Value.readFinite? (trim cs) = some x) : c ∉ cs := by
  intro member
  rcases blank_or_symbol bound member with blank | symbol
  · exact Bool.false_ne_true (solid.symm.trans blank)
  · exact Bool.false_ne_true (foreign.symm.trans symbol)

/-! Written shapes are read -/

theorem read_of_writes (writes : shape.Writes (trim descriptor.toList)) : read descriptor = .ok shape := by
  obtain ⟨kind,min,max,isArray⟩ := shape
  obtain ⟨range,writes,whole⟩ := writes
  dsimp only at writes whole
  cases writes with
  | absent => exact @read_of_spelled descriptor kind none isArray whole
  | @blank blanks blank =>
    have solid {c : Char} (solid : isBlank c = false) : c ∉ blanks := fun member =>
      Bool.false_ne_true (solid.symm.trans (blank c member))
    have flat : ¬ ('(' ∈ blanks ∨ ')' ∈ blanks) := not_or.mpr ⟨solid (by decide),solid (by decide)⟩
    rw [@read_of_spelled descriptor kind (some blanks) isArray whole,ofRange,if_neg flat,if_pos (trim_eq_nil_iff.mpr blank)]
  | @bounds low high min max ranged lower upper ordered =>
    have plain {c : Char} (solid : isBlank c = false) (foreign : Number.isSymbol c = false) : c ∉ low ∧ c ∉ high :=
      ⟨not_mem_bound solid foreign (lower.imp_left And.left),not_mem_bound solid foreign (.inr upper)⟩
    have flat : ¬ ('(' ∈ low ++ ':' :: high ∨ ')' ∈ low ++ ':' :: high) := by
      have opening := plain (c := '(') (by decide) (by decide)
      have closing := plain (c := ')') (by decide) (by decide)
      simp [opening,closing]
    have colon : ':' ∉ low := (plain (by decide) (by decide)).1
    have some : trim (low ++ ':' :: high) ≠ [] := by
      rw [trim_append_cons (by decide)]
      simp
    have bounds : readRange (trimmed descriptor) kind (trim (low ++ ':' :: high)) = .ok (min,max) :=
      (readRange_bounds colon).mpr ⟨Kind.ranges_iff.mpr ranged,lower,upper,ordered⟩
    rw [@read_of_spelled descriptor kind (.some (low ++ ':' :: high)) isArray whole,ofRange,if_neg flat,if_neg some,bounds]
    rfl

/-! What is read is written -/

theorem writesRange_of_readRange (ok : readRange text kind (trim inner) = .ok (min,max)) :
    kind.WritesRange ('(' :: (inner ++ [')'])) min max := by
  obtain ⟨_,_,_,parts,_⟩ := readRange_eq_ok_iff.mp ok
  have member : ':' ∈ inner := by
    have inside : ':' ∈ trim inner := by
      rw [(cut_eq_append parts).1]
      simp
    have begins : trim inner <+: trimStart inner := trimEnd_eq_prefix _
    exact (trimStart_eq_suffix inner).subset (begins.subset inside)
  obtain ⟨low,high,rfl,plain⟩ := List.eq_append_cons_of_mem member
  obtain ⟨ranges,lower,upper,ordered⟩ := (readRange_bounds plain).mp ok
  exact .bounds (Kind.ranges_iff.mp ranges) lower upper ordered

theorem writes_of_ofRange (ok : ofRange text kind isArray range = .ok shape) : shape.Writes (spelled kind range isArray) := by
  cases range with
  | none =>
    cases ok
    exact ⟨_,.absent,rfl⟩
  | some inner =>
    rw [ofRange] at ok
    split at ok
    next => cases ok
    next =>
      split at ok
      next blank =>
        cases ok
        exact ⟨_,.blank (trim_eq_nil_iff.mp blank),rfl⟩
      next =>
        cases bounds : readRange text kind (trim inner) with
        | error => rw [bounds] at ok; cases ok
        | ok =>
          rw [bounds] at ok
          cases ok
          exact ⟨_,writesRange_of_readRange bounds,rfl⟩

/-- A text is read as a shape exactly when it is a way to write this shape, with nothing but blanks around it. -/
theorem read_iff_writes (descriptor : String) (shape : Shape) :
    read descriptor = .ok shape ↔ shape.Writes (trim descriptor.toList) := by
  constructor
  · intro ok
    obtain ⟨kind,range,isArray,written⟩ := exists_spelled ok
    rw [read_of_spelled written] at ok
    rw [written]
    exact writes_of_ofRange ok
  · exact read_of_writes

example : ["int (0:1)","int(0:1) ...","int(0:1)(0:1)","int((0:1))","int(0:)","bool(0:1)"].all
    (fun text => (read text).toOption.isNone) = true := by decide +kernel

end Shape
end TreeConsole
