import Mathlib.Data.List.Basic

/-! Loops over a queue.
A loop takes the first of a queue, works on it and puts more at the end, and it may take the same element again and again.
It is told by its rounds, as many as it makes, without a number of steps given in advance. It ends when what stands before
its rounds bounds what can ever be queued; with as many steps as it makes rounds, nothing of it is cut off.
-/
namespace TreeConsole

/-- What a round of a loop took from the front of a queue, and what it added at the end. -/
structure Round (α : Type) where
  taken : α
  added : List α

/-- A loop over a queue, told by its rounds, from the state before it to the state after it. A round takes the first that
waits and either goes on, with more at the end of the queue, or ends the loop. An empty queue ends it too. -/
inductive Rounds {σ α : Type} (body : σ → α → σ × Option (List α)) : σ → List α → List (Round α) → σ → Prop
  | emptied {s} : Rounds body s [] [] s
  | ended {s after first queue} (ends : body s first = (after,none)) : Rounds body s (first :: queue) [⟨first,[]⟩] after
  | continued {s middle after first queue more rounds} (goesOn : body s first = (middle,some more))
      (later : Rounds body middle (queue ++ more) rounds after) :
      Rounds body s (first :: queue) (⟨first,more⟩ :: rounds) after

/-- The state of a loop that is cut off when it has made so many rounds. -/
def cutOff {σ α : Type} (body : σ → α → σ × Option (List α)) : (steps : Nat) → σ → List α → σ
  | 0,s,_ => s
  | _,s,[] => s
  | steps + 1,s,first :: queue =>
    match body s first with
    | (after,none) => after
    | (middle,some more) => cutOff body steps middle (queue ++ more)

section
variable {σ α : Type} {body : σ → α → σ × Option (List α)} {s after other : σ} {queue seen : List α}
variable {rounds others : List (Round α)} {steps : Nat}

theorem cutOff_nil : cutOff body steps s [] = s := by cases steps <;> rfl

/-- A loop goes one way only. -/
theorem Rounds.unique (run : Rounds body s queue rounds after) (also : Rounds body s queue others other) :
    rounds = others ∧ after = other := by
  induction run generalizing others with
  | emptied =>
    cases also
    exact ⟨rfl,rfl⟩
  | ended ends =>
    cases also with
    | ended alike =>
      cases ends.symm.trans alike
      exact ⟨rfl,rfl⟩
    | continued goesOn => cases ends.symm.trans goesOn
  | continued goesOn _ ih =>
    cases also with
    | ended ends => cases goesOn.symm.trans ends
    | continued alike later =>
      cases goesOn.symm.trans alike
      obtain ⟨rfl,rfl⟩ := ih later
      exact ⟨rfl,rfl⟩

/-- Nothing is cut off of a loop that ends in time. -/
theorem Rounds.cutOff_eq (run : Rounds body s queue rounds after) (enough : rounds.length ≤ steps) :
    cutOff body steps s queue = after := by
  induction run generalizing steps with
  | emptied => exact cutOff_nil
  | ended ends =>
    obtain ⟨fewer,rfl⟩ := Nat.exists_eq_add_one.mpr enough
    rw [cutOff,ends]
  | continued goesOn _ ih =>
    obtain ⟨fewer,rfl⟩ := Nat.exists_eq_add_one.mpr (Nat.zero_lt_of_lt enough)
    rw [cutOff,goesOn]
    exact ih (Nat.le_of_succ_le_succ enough)

/-- What is taken was queued, in the same order. -/
theorem Rounds.taken_prefix (run : Rounds body s queue rounds after) :
    rounds.map Round.taken <+: queue ++ rounds.flatMap Round.added := by
  induction run with
  | emptied => exact List.prefix_refl _
  | ended => exact ⟨_,rfl⟩
  | continued _ _ ih => simpa [List.prefix_cons_inj] using ih

section
variable {motive : List α → σ → List α → Prop} {held : List α → Prop} {bound : Nat}
  (kept : ∀ {seen s first queue middle more}, motive seen s (first :: queue) → body s first = (middle,some more) →
    motive (seen ++ [first]) middle (queue ++ more))
  (holds : ∀ {seen s queue}, motive seen s queue → held (seen ++ queue))
  (bounded : ∀ {queued}, held queued → queued.length ≤ bound)

include kept holds bounded

theorem exists_rounds_after (steps : Nat) (stands : motive seen s queue) (room : bound ≤ seen.length + steps) :
    ∃ rounds after, Rounds body s queue rounds after ∧ held (seen ++ (queue ++ rounds.flatMap Round.added)) := by
  induction steps generalizing seen s queue with
  | zero =>
    have full := bounded (holds stands)
    rw [List.length_append] at full
    obtain rfl : queue = [] := List.length_eq_zero_iff.mp (by omega)
    exact ⟨[],s,.emptied,holds stands⟩
  | succ steps ih =>
    cases queue with
    | nil => exact ⟨[],s,.emptied,holds stands⟩
    | cons first queue =>
      rcases round : body s first with ⟨next,_ | more⟩
      · exact ⟨[⟨first,[]⟩],next,.ended round,by simpa using holds stands⟩
      · have left : bound ≤ (seen ++ [first]).length + steps := by rw [List.length_append,List.length_singleton]; omega
        obtain ⟨rounds,last,later,whole⟩ := ih (kept stands round) left
        exact ⟨⟨first,more⟩ :: rounds,last,.continued round later,by simpa using whole⟩

/-- A loop ends when something stands before each of its rounds, of what was taken so far, the state and the queue, that
leaves room for only so many elements that were ever queued. -/
theorem exists_rounds (start : motive [] s queue) :
    ∃ rounds after, Rounds body s queue rounds after ∧ held (queue ++ rounds.flatMap Round.added) :=
  exists_rounds_after (motive := motive) kept holds bounded bound start (Nat.le_add_left _ _)

end

end

end TreeConsole
