import TreeConsole.Proofs.Text.Pieces
import TreeConsole.Shape.Coercion

/-! Texts of equals signs.
A row of equals signs is no number and no truth value, and it is cut nowhere. Whatever accepts it keeps it as it stands,
so there are as many values to tell apart as there are rows.
-/
namespace TreeConsole
open Text

/-- A row of equals signs, at least one. -/
def signs (n : Nat) : String := String.ofList (List.replicate (n + 1) '=')

theorem toList_signs (n : Nat) : (signs n).toList = '=' :: List.replicate n '=' := by
  rw [signs,String.toList_ofList,List.replicate_succ]

theorem length_signs (n : Nat) : (signs n).length = n + 1 := by
  rw [← String.length_toList,signs,String.toList_ofList,List.length_replicate]

theorem readBool?_of_mem {text : String} (member : '=' ∈ text.toList) : readBool? text = none := by
  have kept : '=' ∈ (String.ofList (text.toList.map Char.toLower)).toList := by
    rw [String.toList_ofList]
    exact List.mem_map.mpr ⟨'=',member,rfl⟩
  unfold readBool?
  generalize String.ofList (text.toList.map Char.toLower) = word at kept
  -- No spelling of a truth value has an equals sign.
  split
  all_goals first | rfl | exact absurd kept (by decide)

theorem readInt64?_signs (n : Nat) : Number.readInt64? (signs n).toList = none := by
  rw [toList_signs]
  simp [Number.readInt64?,Number.readInt?,Number.takeSign,Number.readNat?]

theorem readFinite?_signs (n : Nat) : Value.readFinite? (signs n).toList = none := by
  have unsigned : Number.takeSign (signs n).toList = (false,(signs n).toList) := by rw [toList_signs]; rfl
  have unnamed : Binary64.readName? (signs n).toList = none := by
    have starts : (String.ofList ((signs n).toList.map Char.toLower)).toList.head? = some '=' := by
      rw [String.toList_ofList,toList_signs]
      rfl
    unfold Binary64.readName?
    rw [unsigned]
    dsimp only
    generalize String.ofList ((signs n).toList.map Char.toLower) = name at starts
    split
    all_goals first | rfl | exact absurd starts (by decide)
  have unread : Decimal.read? (signs n).toList = none := by
    have stops : Decimal.takeDigits (signs n).toList = ([],(signs n).toList) := by rw [toList_signs]; rfl
    unfold Decimal.read?
    rw [unsigned]
    dsimp only
    rw [stops,toList_signs]
    rfl
  rw [Value.readFinite?,Binary64.read?,unnamed,unread]
  rfl

theorem splitClean_signs (n : Nat) : splitClean (signs n) "," = [signs n] := by
  have ends (c : Char) (member : c ∈ (signs n).toList) : c = '=' := by
    rw [toList_signs,← List.replicate_succ] at member
    exact List.eq_of_mem_replicate member
  have solid : trim (signs n).toList = (signs n).toList := by
    refine trim_eq_self (fun c starts => ?_) fun c last => ?_
    · rw [ends c (List.mem_of_mem_head? starts)]; rfl
    · rw [ends c (List.mem_of_mem_getLast? last)]; rfl
  exact splitClean_whole rfl (fun member => absurd (ends ',' member) (by decide)) solid (by simp [toList_signs])

namespace Shape
variable {shape : Shape} {choices : List String} {n : Nat} {v : Value}

theorem coerce_signs (coerced : shape.coerce choices (signs n) = some v) : v = .string (signs n) := by
  unfold coerce at coerced
  split at coerced
  · simp [readInt64?_signs] at coerced
  · simp [readFinite?_signs] at coerced
  · split at coerced <;> simp_all
  · simp [readBool?_of_mem,toList_signs] at coerced
  · split at coerced <;> simp_all

theorem coerceText_signs (coerced : shape.coerceText choices (signs n) = some v) :
    v = .string (signs n) ∨ v = .list [.string (signs n)] := by
  unfold coerceText at coerced
  split at coerced
  · right
    rw [splitClean_signs,coerceAll] at coerced
    obtain ⟨vs,each,rfl⟩ := Option.map_eq_some_iff.mp coerced
    cases single : shape.coerce choices (signs n) with
    | none => simp [single] at each
    | some value => simpa [single,coerce_signs single,eq_comm] using each
  · exact .inl (coerce_signs coerced)

end Shape

/-- Different texts of equals signs are never read to the same value. -/
theorem Shapes.coerceText_signs_injective {shapes : Shapes} {choices : List String} {n m : Nat} {v : Value}
    (first : shapes.coerceText choices (signs n) = some v) (second : shapes.coerceText choices (signs m) = some v) :
    n = m := by
  obtain ⟨one,_,coerced⟩ := List.exists_of_findSome?_eq_some first
  obtain ⟨other,_,coerces⟩ := List.exists_of_findSome?_eq_some second
  have same : signs n = signs m := by
    rcases Shape.coerceText_signs coerced with rfl | rfl <;> rcases Shape.coerceText_signs coerces with equal | equal <;>
      simp_all
  have lengths := congrArg String.length same
  rw [length_signs,length_signs] at lengths
  exact Nat.succ.inj lengths

end TreeConsole
