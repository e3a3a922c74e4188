import TreeConsole.Chain
import TreeConsole.Proofs.Text.Pieces

/-! Scanning a chain.
A text passes a scan when no separator in it stands outside quotes and parentheses. Texts that pass from the outside
to the outside are found again as the pieces between separators.
-/
namespace TreeConsole.Chain
open Text

/-- A text that leads from one nesting to another, with no separator outside on the way. -/
inductive Passes (separator : Char) : Nesting → List Char → Nesting → Prop
  | nil {state} : Passes separator state [] state
  | cons {state next last c cs} (within : ¬ (c = separator ∧ state = .outside)) (step : state.after c = some next)
      (later : Passes separator next cs last) : Passes separator state (c :: cs) last

variable {separator c quote : Char} {state middle last : Nesting} {depth : Nat} {cs rest first : List Char}
variable {more : List (List Char)}

theorem Passes.append (front : Passes separator state cs middle) (behind : Passes separator middle rest last) :
    Passes separator state (cs ++ rest) last := by
  induction front with
  | nil => exact behind
  | cons within step _ ih => exact .cons within step (ih behind)

/-! Texts that pass -/

/-- A character that neither separates nor opens or closes anything. -/
def Plain (separator c : Char) : Prop := c ≠ separator ∧ isQuote c = false ∧ c ≠ '(' ∧ c ≠ ')'

instance : Decidable (Plain separator c) := inferInstanceAs (Decidable (_ ∧ _))

theorem after_plain (bare : isQuote c = false) (notOpen : c ≠ '(') (notClose : c ≠ ')') :
    (⟨none,depth⟩ : Nesting).after c = some ⟨none,depth⟩ := by
  simp [Nesting.after,bare,notOpen,notClose]

theorem Passes.plain (plain : ∀ c ∈ cs, Plain separator c) : Passes separator ⟨none,depth⟩ cs ⟨none,depth⟩ := by
  induction cs with
  | nil => exact .nil
  | cons c later ih =>
    obtain ⟨other,bare,notOpen,notClose⟩ := plain c (by simp)
    have later := ih fun d member => plain d (by simp [member])
    exact .cons (fun both => other both.1) (after_plain bare notOpen notClose) later

theorem Passes.quoted (isQuote : isQuote quote = true) (absent : quote ∉ cs) (bare : Text.isQuote separator = false) :
    Passes separator ⟨none,depth⟩ (quote :: (cs ++ [quote])) ⟨none,depth⟩ := by
  have inner : Passes separator ⟨some quote,depth⟩ (cs ++ [quote]) ⟨none,depth⟩ := by
    induction cs with
    | nil => exact .cons (by simp [Nesting.outside]) (by simp [Nesting.after]) .nil
    | cons c later ih =>
      simp only [List.mem_cons,not_or] at absent
      exact .cons (by simp [Nesting.outside]) (by simp [Nesting.after,Ne.symm absent.1]) (ih absent.2)
  have other : quote ≠ separator := by
    rintro rfl
    simp [isQuote] at bare
  exact .cons (fun both => other both.1) (by simp [Nesting.after,isQuote]) inner

theorem Passes.enclosed (inner : Passes separator ⟨none,depth + 1⟩ cs ⟨none,depth + 1⟩) (other : separator ≠ '(') :
    Passes separator ⟨none,depth⟩ ('(' :: (cs ++ [')'])) ⟨none,depth⟩ := by
  have close : Passes separator ⟨none,depth + 1⟩ [')'] ⟨none,depth⟩ :=
    .cons (by simp [Nesting.outside]) (by simp [Nesting.after,isQuote]) .nil
  exact .cons (fun both => other both.1.symm) (by simp [Nesting.after,isQuote]) (inner.append close)

/-! What a scan finds -/

/-- A text that passes joins the piece that the scan finds behind it. -/
theorem Passes.scan (passes : Passes separator state cs last) (behind : scan separator last rest = some (first :: more)) :
    scan separator state (cs ++ rest) = some ((cs ++ first) :: more) := by
  induction passes with
  | nil => exact behind
  | cons within step _ ih =>
    rw [List.cons_append,Chain.scan,if_neg within,step,Option.bind_some,ih behind]
    rfl

theorem scan_separator : scan separator .outside (separator :: rest) = (scan separator .outside rest).map ([] :: ·) := by
  simp [scan]

/-- Pieces that pass are found again, where the first may begin inside of something. -/
theorem scan_intercalate (head : Passes separator state first .outside)
    (tail : ∀ part ∈ more, Passes separator .outside part .outside) :
    scan separator state ([separator].intercalate (first :: more)) = some (first :: more) := by
  induction more generalizing state first with
  | nil =>
    have found : scan separator state (first ++ []) = some [first ++ []] := head.scan rfl
    simpa using found
  | cons second later ih =>
    have behind := ih (tail second (by simp)) fun part member => tail part (List.mem_cons_of_mem second member)
    have found : scan separator .outside (separator :: [separator].intercalate (second :: later)) =
        some ([] :: second :: later) := by rw [scan_separator,behind]; rfl
    rw [List.intercalate_cons_cons,List.append_assoc,List.singleton_append,head.scan found,List.append_nil]

/-- What a scan finds are the pieces of its text, and all of them pass. -/
theorem exists_of_scan {parts : List (List Char)} (found : scan separator state cs = some parts) :
    ∃ first more, parts = first :: more ∧ cs = [separator].intercalate (first :: more) ∧
      Passes separator state first .outside ∧ ∀ part ∈ more, Passes separator .outside part .outside := by
  induction cs generalizing state parts with
  | nil =>
    obtain ⟨rfl,same⟩ := Option.ite_none_right_eq_some.mp found
    cases same
    exact ⟨[],[],rfl,by simp,.nil,by simp⟩
  | cons c rest ih =>
    rw [scan] at found
    split at found
    next separates =>
      obtain ⟨rfl,rfl⟩ := separates
      obtain ⟨others,behind,rfl⟩ := Option.map_eq_some_iff.mp found
      obtain ⟨first,more,rfl,rfl,head,tail⟩ := ih behind
      exact ⟨[],first :: more,rfl,by simp [List.intercalate_cons_cons],.nil,List.forall_mem_cons.mpr ⟨head,tail⟩⟩
    next within =>
      obtain ⟨next,step,joined⟩ := Option.bind_eq_some_iff.mp found
      obtain ⟨others,behind,rfl⟩ := Option.map_eq_some_iff.mp joined
      obtain ⟨first,more,rfl,rfl,head,tail⟩ := ih behind
      refine ⟨c :: first,more,rfl,?_,.cons within step head,tail⟩
      rw [intercalate_cons,intercalate_cons,List.cons_append]

theorem scan_outside_iff {parts : List (List Char)} : scan separator .outside cs = some parts ↔
    parts ≠ [] ∧ cs = [separator].intercalate parts ∧ ∀ part ∈ parts, Passes separator .outside part .outside := by
  constructor
  · intro found
    obtain ⟨first,more,rfl,whole,head,tail⟩ := exists_of_scan found
    exact ⟨List.cons_ne_nil first more,whole,List.forall_mem_cons.mpr ⟨head,tail⟩⟩
  · rintro ⟨some,rfl,pass⟩
    obtain ⟨first,more,rfl⟩ := List.exists_cons_of_ne_nil some
    obtain ⟨head,tail⟩ := List.forall_mem_cons.mp pass
    exact scan_intercalate head tail

theorem splitOutside_intercalate (pass : ∀ part ∈ first :: more, Passes separator .outside part .outside) :
    splitOutside separator ([separator].intercalate (first :: more)) = some (clean (first :: more)) := by
  rw [splitOutside,scan_outside_iff.mpr ⟨List.cons_ne_nil first more,rfl,pass⟩]
  rfl

theorem splitOutside_of_passes (passes : Passes separator .outside first .outside) :
    splitOutside separator first = some (clean [first]) := by
  have alone := splitOutside_intercalate (List.forall_mem_singleton.mpr passes)
  rwa [List.intercalate_singleton] at alone

end TreeConsole.Chain
