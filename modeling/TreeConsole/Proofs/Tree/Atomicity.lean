import TreeConsole.Proofs.Tree.Change

/-! Calls that fail and calls that ask.
A call works on the tree in place and nothing is put back when it fails. The tree is nevertheless the same after
every failure, and after every call of a method that only asks.
-/
namespace TreeConsole.Tree
open Update
variable {t after : Tree} {id : Handle} {args : List Value}

theorem call_reads {known : Method} (query : known.isQuery) : Reads (call id known.name args) := by
  refine ⟨?_,call_atomic⟩
  intro t v after ok
  obtain ⟨node,_,_,lookup,performed⟩ := exists_of_call ok
  rw [Method.ofName?_name,Option.some.injEq] at lookup
  subst lookup
  exact (perform_reads query).kept t v after performed

theorem Update.Atomic.outcome {α : Type} {u : Update α} (atomic : Atomic u) (error : HostError)
    (failed : u.outcome t = (after,.error error)) : after = t :=
  atomic t error after (outcome_eq_error_iff.mp failed)

theorem Update.Reads.outcome {α : Type} {u : Update α} (reads : Reads u) (t : Tree) : (u.outcome t).1 = t := by
  cases left : u.outcome t with
  | mk after answer =>
    cases answer with
    | ok a => exact reads.kept t a after (outcome_eq_ok_iff.mp left)
    | error error => exact reads.atomic.outcome error left

/-- Whatever a tree and a node of it are, live, freed or none: a call that fails, by a method or from outside, leaves
the tree as it was, and so does every call of a method that only asks. -/
theorem failed_call_unchanged (t : Tree) (id : Handle) (name method : String) (args : List Value) :
    (∀ error after, t.invoke id method args = (after,.error error) → after = t) ∧
    (∀ error after, (Update.addChild id name).outcome t = (after,.error error) → after = t) ∧
    (∀ error after, (Update.free id).outcome t = (after,.error error) → after = t) ∧
    ∀ known : Method, known.isQuery → (t.invoke id known.name args).1 = t :=
  ⟨fun error _ => call_atomic.outcome error,fun error _ => addChild_atomic.outcome error,
    fun error _ => free_atomic.outcome error,fun _ query => (call_reads query).outcome t⟩

/-- The root has one child, and two was its child. -/
def pruned : Tree := new.run [.addChild root "a",.addChild 1 "b",.free 2]

theorem failed_call_unchanged_pruned :
    (∃ error, pruned.invoke 1 "rename" [.string "a/b"] = (pruned,.error error)) ∧
    (∃ error, (Update.addChild root "a").outcome pruned = (pruned,.error error)) ∧
    (∃ error, (Update.free 2).outcome pruned = (pruned,.error error)) ∧
    pruned.invoke root "get_children" [] = (pruned,.ok (.list [.object 1])) := by
  obtain ⟨renamed,_⟩ := failed_call_unchanged pruned 1 "" "rename" [.string "a/b"]
  obtain ⟨_,added,_⟩ := failed_call_unchanged pruned root "a" "" []
  obtain ⟨_,_,freed,_⟩ := failed_call_unchanged pruned 2 "" "" []
  obtain ⟨_,_,_,asked⟩ := failed_call_unchanged pruned root "" "" []
  refine ⟨⟨_,Prod.ext (renamed _ _ rfl) rfl⟩,⟨_,Prod.ext (added _ _ rfl) rfl⟩,⟨_,Prod.ext (freed _ _ rfl) rfl⟩,?_⟩
  exact Prod.ext (asked .getChildren rfl) rfl

/-! Runs in place -/

def Operation.update : Operation → Update Value
  | .addChild parent name => do pure (.object (← Update.addChild parent name))
  | .free id => do
    Update.free id
    pure .null
  | .invoke id method args => call id method args

theorem apply_eq_outcome (t : Tree) (operation : Operation) : t.apply operation = operation.update.outcome t := by
  cases operation with
  | addChild parent name =>
    cases added : Update.addChild parent name t with
    | ok child after =>
      have whole : (Operation.addChild parent name).update t = .ok (.object child) after :=
        Update.bind_eq_ok_iff.mpr ⟨child,after,added,rfl⟩
      rw [outcome_eq_ok_iff.mpr whole,apply,addChild,result_eq_ok_iff.mpr added]
    | error error after =>
      have same := addChild_atomic t error after added
      have whole : (Operation.addChild parent name).update t = .error error after := Update.bind_eq_error_iff.mpr (.inl added)
      rw [outcome_eq_error_iff.mpr whole,apply,addChild,result_eq_error_iff.mpr ⟨after,added⟩,same]
  | free id =>
    cases freed : Update.free id t with
    | ok done after =>
      have whole : (Operation.free id).update t = .ok .null after := Update.bind_eq_ok_iff.mpr ⟨done,after,freed,rfl⟩
      rw [outcome_eq_ok_iff.mpr whole,apply,free_result_iff.mpr freed]
    | error error after =>
      have same := free_atomic t error after freed
      have whole : (Operation.free id).update t = .error error after := Update.bind_eq_error_iff.mpr (.inl freed)
      rw [outcome_eq_error_iff.mpr whole,apply,free,result_eq_error_iff.mpr ⟨after,freed⟩,same]
      rfl
  | invoke => rfl

/-- To put the tree back after a failure is no different from leaving it as the failure does. -/
theorem run_eq_foldl_outcome (t : Tree) (operations : List Operation) :
    t.run operations = operations.foldl (fun before operation => (operation.update.outcome before).1) t := by
  simp only [run,apply_eq_outcome]

end TreeConsole.Tree
