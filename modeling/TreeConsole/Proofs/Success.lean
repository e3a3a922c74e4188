/-! Success of results.
A sequence of steps that may fail succeeds exactly when each of its steps does, and fails with the error of the first
that does not.
-/
namespace TreeConsole

theorem bind_eq_ok_iff {ε α β : Type} {first : Except ε α} {next : α → Except ε β} {result : β} :
    first >>= next = .ok result ↔ ∃ middle, first = .ok middle ∧ next middle = .ok result := by
  constructor
  · intro ok
    cases first with
    | error => cases ok
    | ok middle => exact ⟨middle,rfl,ok⟩
  · rintro ⟨middle,rfl,ok⟩
    exact ok

theorem bind_eq_error_iff {ε α β : Type} {first : Except ε α} {next : α → Except ε β} {error : ε} :
    first >>= next = .error error ↔
      first = .error error ∨ ∃ middle, first = .ok middle ∧ next middle = .error error := by
  constructor
  · intro failed
    cases first with
    | error => cases failed; exact .inl rfl
    | ok middle => exact .inr ⟨middle,rfl,failed⟩
  · rintro (rfl | ⟨middle,rfl,failed⟩)
    · rfl
    · exact failed

/-- A check that stops the sequence is passed when its condition does not hold. -/
theorem unless_eq_ok_iff {ε α : Type} {failing : Prop} [Decidable failing] {error : ε} {next : PUnit → Except ε α}
    {result : α} : (if failing then throw error >>= next else next ⟨⟩) = .ok result ↔ ¬ failing ∧ next ⟨⟩ = .ok result := by
  split
  next fails => exact ⟨(fun ok => nomatch ok),fun passed => absurd fails passed.1⟩
  next passes => exact (and_iff_right passes).symm

section Sequence
variable {ε α β : Type} {f : α → Except ε β} {x : α} {xs before after : List α} {error : ε}

theorem exists_mapM_ok (each : ∀ x ∈ xs, ∃ y, f x = .ok y) : ∃ ys, xs.mapM f = .ok ys ∧ ys.length = xs.length := by
  induction xs with
  | nil => exact ⟨[],rfl,rfl⟩
  | cons x rest ih =>
    obtain ⟨y,first⟩ := each x List.mem_cons_self
    obtain ⟨ys,later,count⟩ := ih fun x member => each x (List.mem_cons_of_mem _ member)
    refine ⟨y :: ys,?_,congrArg (· + 1) count⟩
    rw [List.mapM_cons,first,later]
    rfl

/-- Whatever comes after the first step that fails, its error is the error of the sequence. -/
theorem mapM_append_cons_error (earlier : ∀ x ∈ before, ∃ y, f x = .ok y) (failed : f x = .error error) :
    (before ++ x :: after).mapM f = .error error := by
  obtain ⟨ys,done,_⟩ := exists_mapM_ok earlier
  rw [List.mapM_append,done,List.mapM_cons,failed]
  rfl

/-- A sequence in which a step fails has a first one that does. -/
theorem exists_first_failing (member : x ∈ xs) (failing : ¬ ∃ y, f x = .ok y) : ∃ before first after,
    xs = before ++ first :: after ∧ (∀ x ∈ before, ∃ y, f x = .ok y) ∧ ¬ ∃ y, f first = .ok y := by
  induction xs with
  | nil => cases member
  | cons head rest ih =>
    by_cases passes : ∃ y, f head = .ok y
    · have behind : x ∈ rest := (List.mem_cons.mp member).resolve_left fun same => failing (same ▸ passes)
      obtain ⟨before,first,after,rfl,earlier,fails⟩ := ih behind
      exact ⟨head :: before,first,after,rfl,List.forall_mem_cons.mpr ⟨passes,earlier⟩,fails⟩
    · exact ⟨[],head,rest,rfl,by simp,passes⟩

end Sequence

end TreeConsole
