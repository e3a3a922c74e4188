import TreeConsole.Proofs.Number.Notation
import TreeConsole.Proofs.Success
import TreeConsole.Proofs.Text.Quoting
import TreeConsole.Shape
import Mathlib.Data.List.Forall2

/-! Descriptors of shapes, read back.
The text of a shape that was read describes an equal shape: zero bounds are no range and are left out, an open lower
bound is written as zero, and no bound shows a bar, a blank, a colon or a parenthesis that the reader would cut at.
-/
namespace TreeConsole

namespace Binary64
variable {x y : Binary64}

theorem readFinite?_plainText (finite : x.isFinite = true) : Value.readFinite? x.plainText = some x := by
  simp [Value.readFinite?,read?_plainText finite,finite]

theorem isFinite_of_readFinite? {cs : List Char} (found : Value.readFinite? cs = some x) : x.isFinite = true :=
  (Option.filter_eq_some_iff.mp found).2

theorem same_self (finite : x.isFinite = true) : x.same x = true := by
  cases x with
  | finite => simp [same,position]
  | _ => cases finite

theorem same_comm (x y : Binary64) : x.same y = y.same x := by
  unfold same
  cases x.position with
  | none => cases y.position <;> rfl
  | some a =>
    cases y.position with
    | none => rfl
    | some b => exact Bool.beq_comm

end Binary64

namespace Kind

theorem name_of_ofName? {name : String} {kind : Kind} (found : ofName? name = some kind) : name = kind.name := by
  unfold ofName? at found
  split at found <;> cases found <;> rfl

end Kind

namespace Shape
open Text
variable {shape : Shape} {descriptor text : String} {kind : Kind} {range : Option (List Char)} {isArray : Bool}
variable {cs lowText highText : List Char} {low high : Binary64}

/-! Bounds -/

theorem readBound_eq_ok_iff : readBound text cs = .ok low ↔ Value.readFinite? cs = some low := by
  unfold readBound
  cases Value.readFinite? cs <;> simp

/-- The upper bound of a range, and both bounds in order. -/
def readHigh (text : String) (min : Binary64) (cs : List Char) : Except ShapeError (Binary64 × Binary64) := do
  if cs.isEmpty then throw (.missingUpperBound text)
  let max ← readBound text cs
  if min.le max then pure (min,max) else throw (.invertedRange text)

theorem readHigh_eq_ok_iff {min : Binary64} : readHigh text min cs = .ok (low,high) ↔
    min = low ∧ Value.readFinite? cs = some high ∧ low.le high = true := by
  unfold readHigh
  split
  next empty =>
    rw [List.isEmpty_iff.mp empty]
    have nothing : Value.readFinite? [] = none := rfl
    simp [nothing,bind,Except.bind,throw,throwThe,MonadExceptOf.throw]
  next some =>
    constructor
    · intro ok
      obtain ⟨max,found,ok⟩ := bind_eq_ok_iff.mp ok
      split at ok
      next ordered =>
        cases ok
        exact ⟨rfl,readBound_eq_ok_iff.mp found,ordered⟩
      next => cases ok
    · rintro ⟨rfl,found,ordered⟩
      refine bind_eq_ok_iff.mpr ⟨high,readBound_eq_ok_iff.mpr found,?_⟩
      rw [if_pos ordered]
      rfl

theorem readRange_eq (ranges : kind.ranges = true) : readRange text kind cs =
    match cut ':' cs with
    | none => .error (.malformed text)
    | some (low,high) =>
      (if (trim low).isEmpty then .ok .zero else readBound text (trim low)) >>= fun min =>
        readHigh text min (trim high) := by
  unfold readRange
  rw [ranges,if_neg (by decide)]
  cases cut ':' cs with
  | none => rfl
  | some halves =>
    obtain ⟨low,high⟩ := halves
    dsimp only
    by_cases opened : (trim low).isEmpty
    · rw [if_pos opened,if_pos opened]
      rfl
    · rw [if_neg opened,if_neg opened]
      rfl

theorem readRange_eq_ok_iff : readRange text kind cs = .ok (low,high) ↔ kind.ranges = true ∧ ∃ lowText highText,
    cut ':' cs = some (lowText,highText) ∧ (trim lowText = [] ∧ low = .zero ∨ Value.readFinite? (trim lowText) = some low) ∧
      Value.readFinite? (trim highText) = some high ∧ low.le high = true := by
  by_cases ranges : kind.ranges = true
  · rw [readRange_eq ranges]
    simp only [ranges,true_and]
    cases cut ':' cs with
    | none => simp
    | some halves =>
      obtain ⟨lowText,highText⟩ := halves
      have nothing : Value.readFinite? [] = none := rfl
      have lower (min : Binary64) : (if (trim lowText).isEmpty then .ok .zero else readBound text (trim lowText)) = .ok min ↔
          trim lowText = [] ∧ min = .zero ∨ Value.readFinite? (trim lowText) = some min := by
        split
        next opened =>
          rw [List.isEmpty_iff.mp opened,nothing]
          simp [eq_comm]
        next written =>
          rw [readBound_eq_ok_iff]
          simp [List.isEmpty_iff.not.mp written]
      simp only [bind_eq_ok_iff,readHigh_eq_ok_iff,Option.some.injEq,Prod.mk.injEq]
      constructor
      · rintro ⟨min,first,rfl,second⟩
        exact ⟨lowText,highText,⟨rfl,rfl⟩,(lower min).mp first,second⟩
      · rintro ⟨_,_,⟨rfl,rfl⟩,first,second⟩
        exact ⟨low,(lower low).mpr first,rfl,second⟩
  · constructor
    · intro ok
      rw [readRange,Bool.eq_false_of_not_eq_true ranges,if_pos (by decide)] at ok
      cases ok
    · exact fun ok => absurd ok.1 ranges

/-- The bounds of a range are what stands before and behind its first colon, without the blanks around. -/
theorem readRange_bounds (plain : ':' ∉ lowText) :
    readRange text kind (trim (lowText ++ ':' :: highText)) = .ok (low,high) ↔ kind.ranges = true ∧
      (trim lowText = [] ∧ low = .zero ∨ Value.readFinite? (trim lowText) = some low) ∧
      Value.readFinite? (trim highText) = some high ∧ low.le high = true := by
  have unstarted : ':' ∉ trimStart lowText := fun member => plain ((trimStart_eq_suffix lowText).subset member)
  rw [readRange_eq_ok_iff,trim_append_cons (by decide),cut_append unstarted]
  refine and_congr_right fun _ => ⟨?_,fun bounds => ⟨_,_,rfl,?_⟩⟩
  · rintro ⟨_,_,parts,bounds⟩
    cases parts
    rwa [trim_trimStart,trim_trimEnd] at bounds
  · rwa [trim_trimStart,trim_trimEnd]

/-! Texts -/

theorem isAlpha_of_mem_name {c : Char} (member : c ∈ kind.name.toList) : c.isAlpha = true := by
  have letters : kind.name.toList.all Char.isAlpha = true := by cases kind <;> decide
  exact List.all_eq_true.mp letters c member

theorem exists_name (kind : Kind) : ∃ first more, kind.name.toList = first :: more ∧ isBlank first = false := by
  cases kind <;> exact ⟨_,_,rfl,by decide⟩

def body (kind : Kind) (range : Option (List Char)) : List Char :=
  kind.name.toList ++ range.elim [] fun inner => '(' :: (inner ++ [')'])

def spelled (kind : Kind) (range : Option (List Char)) (isArray : Bool) : List Char :=
  body kind range ++ if isArray then ['.','.','.'] else []

theorem last_of_body {c : Char} (ends : (body kind range).getLast? = some c) : isBlank c = false ∧ c ≠ '.' := by
  cases range with
  | none => cases kind <;> cases ends <;> decide
  | some inner =>
    have closed : body kind (some inner) = (kind.name.toList ++ '(' :: inner) ++ [')'] := by simp [body]
    rw [closed,List.getLast?_concat] at ends
    cases ends
    decide

theorem trim_spelled : trim (spelled kind range isArray) = spelled kind range isArray := by
  apply trim_eq_self
  · intro c starts
    obtain ⟨first,more,name,solid⟩ := exists_name kind
    rw [spelled,body,name,List.cons_append,List.cons_append,List.head?_cons] at starts
    cases starts
    exact solid
  · intro c ends
    cases isArray with
    | true =>
      rw [spelled,if_pos rfl,List.getLast?_append_of_ne_nil _ (List.cons_ne_nil _ _)] at ends
      cases ends
      decide
    | false =>
      rw [spelled,if_neg Bool.false_ne_true,List.append_nil] at ends
      exact (last_of_body ends).1

theorem takeDots_spelled : takeDots (spelled kind range isArray) = (body kind range,isArray) := by
  cases isArray with
  | true => simp [spelled,takeDots]
  | false =>
    rw [spelled,if_neg Bool.false_ne_true,List.append_nil,takeDots]
    split
    next rest found =>
      have ends : (body kind range).getLast? = some '.' := by rw [← List.head?_reverse,found,List.head?_cons]
      exact absurd rfl (last_of_body ends).2
    next => rfl

theorem takeRange_body : takeRange (body kind range) =
    match range with
    | none => some (kind.name.toList,none)
    | some inner => if '(' ∈ inner ∨ ')' ∈ inner then none else some (kind.name.toList,some (trim inner)) := by
  have plain : '(' ∉ kind.name.toList := fun member => absurd (isAlpha_of_mem_name member) (by decide)
  cases range with
  | none => rw [body,Option.elim_none,List.append_nil,takeRange,cut_eq_none plain]
  | some inner =>
    rw [body,Option.elim_some,takeRange,cut_append plain]
    simp [closing_concat]

/-- What is read of a kind with a text in parentheses, or without one. -/
def ofRange (text : String) (kind : Kind) (isArray : Bool) : Option (List Char) → Except ShapeError Shape
  | none => .ok ⟨kind,.zero,.zero,isArray⟩
  | some inner =>
    if '(' ∈ inner ∨ ')' ∈ inner then .error (.malformed text)
    else if trim inner = [] then .ok ⟨kind,.zero,.zero,isArray⟩
    else (readRange text kind (trim inner)).map fun (low,high) => ⟨kind,low,high,isArray⟩

theorem read_of_spelled (written : trim descriptor.toList = spelled kind range isArray) :
    read descriptor = ofRange (trimmed descriptor) kind isArray range := by
  have noClosing : ')' ∉ kind.name.toList := fun member => absurd (isAlpha_of_mem_name member) (by decide)
  have nonempty : (spelled kind range isArray).isEmpty = false := by
    obtain ⟨first,more,name,_⟩ := exists_name kind
    rw [spelled,body,name]
    rfl
  rw [read,trimmed,written]
  simp only [nonempty,takeDots_spelled,takeRange_body]
  cases range with
  | none =>
    simp only [noClosing,String.ofList_toList,Kind.ofName?_name]
    rfl
  | some inner =>
    unfold ofRange
    by_cases nested : '(' ∈ inner ∨ ')' ∈ inner
    · simp only [nested,if_true]
      rfl
    · simp only [nested,if_false,noClosing,String.ofList_toList,Kind.ofName?_name]
      generalize trim inner = range
      cases range with
      | nil => rfl
      | cons first more =>
        dsimp only
        cases readRange (String.ofList (spelled kind (some inner) isArray)) kind (first :: more) <;> rfl

theorem takeDots_append (cs : List Char) : (takeDots cs).1 ++ (if (takeDots cs).2 then ['.','.','.'] else []) = cs := by
  unfold takeDots
  split
  next front reversed =>
    rw [← List.reverse_reverse cs,reversed]
    simp
  next => exact List.append_nil cs

theorem append_of_takeRange {name : List Char} (taken : takeRange cs = some (name,range)) :
    ∃ inner : Option (List Char), cs = name ++ inner.elim [] fun inner => '(' :: (inner ++ [')']) := by
  unfold takeRange at taken
  split at taken
  next =>
    cases taken
    exact ⟨none,(List.append_nil _).symm⟩
  next after found =>
    split at taken
    next => cases taken
    next inner closed =>
      split at taken
      next => cases taken
      next =>
        cases taken
        obtain ⟨rfl,_⟩ := cut_eq_append found
        obtain rfl := closing_eq_some_iff.mp closed
        exact ⟨some inner,rfl⟩

/-- Only spelled texts are read. -/
theorem exists_spelled (ok : read descriptor = .ok shape) :
    ∃ kind range isArray, trim descriptor.toList = spelled kind range isArray := by
  unfold read at ok
  dsimp only at ok
  split at ok
  next => cases ok
  next =>
    split at ok
    next => cases ok
    next name range taken =>
      split at ok
      next => cases ok
      next =>
        split at ok
        next => cases ok
        next kind named =>
          obtain ⟨inner,parts⟩ := append_of_takeRange taken
          rw [← String.toList_ofList (l := name),Kind.name_of_ofName? named] at parts
          refine ⟨kind,inner,(takeDots (trim descriptor.toList)).2,?_⟩
          rw [spelled,body,← parts,takeDots_append]

theorem trim_of_numerals (numerals : ∀ c ∈ cs, Number.isNumeral c = true) : trim cs = cs :=
  trim_eq_self (fun c starts => Number.isBlank_of_isNumeral (numerals c (List.mem_of_mem_head? starts)))
    fun c ends => Number.isBlank_of_isNumeral (numerals c (List.mem_of_getLast? ends))

/-- A range between two numerals is read as it is written. -/
theorem read_of_numerals (ranges : kind.ranges = true) (lower : ∀ c ∈ lowText, Number.isNumeral c = true)
    (upper : ∀ c ∈ highText, Number.isNumeral c = true) (readLow : Value.readFinite? lowText = some low)
    (readHigh : Value.readFinite? highText = some high) (ordered : low.le high = true) :
    read (String.ofList (spelled kind (some (lowText ++ ':' :: highText)) isArray)) = .ok ⟨kind,low,high,isArray⟩ := by
  have whole : ':' ∉ lowText := fun member => absurd (lower ':' member) (by decide)
  have shown (c : Char) (member : c ∈ lowText ++ ':' :: highText) : Number.isNumeral c = true ∨ c = ':' := by
    rcases List.mem_append.mp member with below | behind
    · exact .inl (lower c below)
    · exact (List.mem_cons.mp behind).elim .inr fun above => .inl (upper c above)
  have solid (c : Char) (member : c ∈ lowText ++ ':' :: highText) : isBlank c = false := by
    rcases shown c member with numeral | rfl
    · exact Number.isBlank_of_isNumeral numeral
    · decide
  have flat : ¬ ('(' ∈ lowText ++ ':' :: highText ∨ ')' ∈ lowText ++ ':' :: highText) := by
    rintro (opening | closing)
    · exact absurd (shown _ opening) (by decide)
    · exact absurd (shown _ closing) (by decide)
  have kept : trim (lowText ++ ':' :: highText) = lowText ++ ':' :: highText :=
    trim_eq_self (fun c starts => solid c (List.mem_of_mem_head? starts)) fun c ends => solid c (List.mem_of_getLast? ends)
  have bounds {text : String} : readRange text kind (lowText ++ ':' :: highText) = .ok (low,high) := by
    refine readRange_eq_ok_iff.mpr ⟨ranges,_,_,cut_append whole,.inr ?_,?_,ordered⟩
    · rwa [trim_of_numerals lower]
    · rwa [trim_of_numerals upper]
  rw [read_of_spelled (by rw [String.toList_ofList,trim_spelled]),ofRange,if_neg flat,kept,if_neg (by simp),bounds]
  rfl

/-! Shapes that were read -/

/-- What every shape that was read satisfies. -/
structure Proper (shape : Shape) : Prop where
  finiteMin : shape.min.isFinite = true
  finiteMax : shape.max.isFinite = true
  ordered : shape.min.le shape.max = true
  ranged : shape.hasRange = true → shape.kind.ranges = true

theorem Proper.unranged : Proper ⟨kind,.zero,.zero,isArray⟩ := by
  have unranged : hasRange ⟨kind,.zero,.zero,isArray⟩ = false := rfl
  refine ⟨rfl,rfl,rfl,fun ranged => ?_⟩
  rw [unranged] at ranged
  cases ranged

theorem Proper.of_readRange (ok : readRange text kind cs = .ok (low,high)) : Proper ⟨kind,low,high,isArray⟩ := by
  obtain ⟨ranges,lowText,highText,_,lower,upper,ordered⟩ := readRange_eq_ok_iff.mp ok
  refine ⟨?_,Binary64.isFinite_of_readFinite? upper,ordered,fun _ => ranges⟩
  rcases lower with ⟨_,rfl⟩ | found
  · rfl
  · exact Binary64.isFinite_of_readFinite? found

theorem Proper.of_read (ok : read descriptor = .ok shape) : Proper shape := by
  obtain ⟨kind,range,isArray,written⟩ := exists_spelled ok
  rw [read_of_spelled written] at ok
  cases range with
  | none =>
    cases ok
    exact unranged
  | some inner =>
    rw [ofRange] at ok
    split at ok
    · cases ok
    · split at ok
      · cases ok
        exact unranged
      · cases bounds : readRange (trimmed descriptor) kind (trim inner) with
        | error => rw [bounds] at ok; cases ok
        | ok => rw [bounds] at ok; cases ok; exact of_readRange bounds

def bounds (shape : Shape) : List Char := shape.min.plainText ++ ':' :: shape.max.plainText

theorem toList_text (shape : Shape) :
    shape.text.toList = spelled shape.kind (if shape.hasRange then some shape.bounds else none) shape.isArray := by
  unfold text spelled body
  cases shape.hasRange <;> cases shape.isArray <;> simp [bounds,boundText]

theorem mem_bounds {c : Char} (proper : Proper shape) (member : c ∈ shape.bounds) :
    Number.isNumeral c = true ∨ c = ':' := by
  rw [bounds,List.mem_append,List.mem_cons] at member
  rcases member with lower | between | upper
  · exact .inl (Binary64.isNumeral_of_mem_plainText proper.finiteMin lower)
  · exact .inr between
  · exact .inl (Binary64.isNumeral_of_mem_plainText proper.finiteMax upper)

/-- The shape without a range that is no range. -/
def normal (shape : Shape) : Shape :=
  if shape.hasRange then shape else { shape with min := .zero, max := .zero }

theorem read_text (proper : Proper shape) : read shape.text = .ok shape.normal := by
  rw [← String.ofList_toList (s := shape.text),toList_text,normal]
  by_cases ranged : shape.hasRange
  · rw [if_pos ranged,if_pos ranged]
    refine read_of_numerals (proper.ranged ranged) (fun c => ?_) (fun c => ?_)
      (Binary64.readFinite?_plainText proper.finiteMin) (Binary64.readFinite?_plainText proper.finiteMax) proper.ordered
    · exact Binary64.isNumeral_of_mem_plainText proper.finiteMin
    · exact Binary64.isNumeral_of_mem_plainText proper.finiteMax
  · rw [if_neg ranged,if_neg ranged,read_of_spelled (by rw [String.toList_ofList,trim_spelled]),ofRange]

/-- Equal shapes, with bounds compared as numbers. -/
structure Agrees (shape other : Shape) : Prop where
  kind : shape.kind = other.kind
  min : shape.min.same other.min = true
  max : shape.max.same other.max = true
  isArray : shape.isArray = other.isArray

theorem Proper.normal_agrees (proper : Proper shape) : shape.normal.Agrees shape := by
  unfold normal
  by_cases ranged : shape.hasRange
  · rw [if_pos ranged]
    exact ⟨rfl,Binary64.same_self proper.finiteMin,Binary64.same_self proper.finiteMax,rfl⟩
  · have zeros : shape.min.isZero = true ∧ shape.max.isZero = true := by simpa [hasRange] using ranged
    rw [if_neg ranged]
    refine ⟨rfl,?_,?_,rfl⟩
    · exact (Binary64.same_comm _ _).trans zeros.1
    · exact (Binary64.same_comm _ _).trans zeros.2

theorem noBar_text (proper : Proper shape) : '|' ∉ shape.text.toList := by
  have noBar : '|' ∉ shape.kind.name.toList := fun member => absurd (isAlpha_of_mem_name member) (by decide)
  have clear : '|' ∉ shape.bounds := fun member => absurd (mem_bounds proper member) (by decide)
  rw [toList_text]
  unfold spelled body
  cases shape.hasRange <;> cases shape.isArray <;> simp [noBar,clear]

end Shape

namespace Shapes
open Text
variable {shapes : Shapes} {shape : Shape} {descriptor : String}

/-- The alternatives of a descriptor, between its bars. -/
def alternatives (descriptor : String) : List String := (pieces (· == '|') descriptor.toList).map String.ofList

/-- What is read from the alternatives that can be read, in order. -/
def accepted (descriptor : String) : Shapes :=
  (alternatives descriptor).filterMap fun alternative => (Shape.read alternative).toOption

theorem read_eq_accepted (descriptor : String) : (read descriptor).1 = accepted descriptor := by
  rw [read,accepted,alternatives,List.filterMap_map]
  induction pieces (· == '|') descriptor.toList with
  | nil => rfl
  | cons part later ih =>
    rw [List.map_cons,List.foldr_cons,List.filterMap_cons,← ih]
    cases found : Shape.read (String.ofList part) <;> simp [found,Except.toOption]

theorem proper_of_mem_read (member : shape ∈ (read descriptor).1) : shape.Proper := by
  rw [read_eq_accepted] at member
  obtain ⟨alternative,_,kept⟩ := List.mem_filterMap.mp member
  cases found : Shape.read alternative with
  | error => rw [found] at kept; cases kept
  | ok first => rw [found] at kept; cases kept; exact .of_read found

theorem read_text (some : shapes ≠ []) (proper : ∀ shape ∈ shapes, shape.Proper) :
    read (text shapes) = (shapes.map Shape.normal,[]) := by
  have bar : "|".toList = ['|'] := rfl
  have cut : pieces (· == '|') (text shapes).toList = shapes.map fun shape => shape.text.toList := by
    have free : ∀ part ∈ shapes.map fun shape => shape.text.toList, '|' ∉ part :=
      List.forall_mem_map.mpr fun shape among => Shape.noBar_text (proper shape among)
    rw [text,String.toList_intercalate,bar,List.map_map]
    exact pieces_intercalate (by simpa using some) free
  rw [read,cut,List.map_map]
  clear cut some
  induction shapes with
  | nil => rfl
  | cons first more ih =>
    rw [List.map_cons,List.foldr_cons,ih fun shape among => proper shape (List.mem_cons_of_mem _ among)]
    simp [Shape.read_text (proper first List.mem_cons_self)]

/-- Text of shapes that were read is a descriptor of equal shapes, and nothing in it fails. -/
theorem read_text_read (descriptor : String) :
    ((read descriptor).1 ≠ [] → ∃ again, read (text (read descriptor).1) = (again,[]) ∧
      List.Forall₂ Shape.Agrees again (read descriptor).1) ∧
    ∀ shape, Shape.read descriptor = .ok shape → ∃ again, Shape.read shape.text = .ok again ∧ again.Agrees shape := by
  constructor
  · intro some
    have proper (shape : Shape) (member : shape ∈ (read descriptor).1) : shape.Proper := proper_of_mem_read member
    refine ⟨_,read_text some proper,?_⟩
    rw [List.forall₂_map_left_iff,List.forall₂_same]
    exact fun shape member => (proper shape member).normal_agrees
  · intro shape ok
    have proper := Shape.Proper.of_read ok
    exact ⟨_,Shape.read_text proper,proper.normal_agrees⟩

theorem read_text_read_mixed : (read "nope| int(:2.50)...|bool()").1 ≠ [] ∧
    ∃ again, read (text (read "nope| int(:2.50)...|bool()").1) = (again,[]) ∧
      List.Forall₂ Shape.Agrees again (read "nope| int(:2.50)...|bool()").1 := by
  have some : (read "nope| int(:2.50)...|bool()").1 ≠ [] := by decide +kernel
  exact ⟨some,(read_text_read _).1 some⟩

example : text (read "nope| int(:2.50)...|bool()").1 = "int(0:2.5)...|bool" := by decide +kernel

end Shapes
end TreeConsole
