import TreeConsole.Proofs.Tree.WellFormed
import Mathlib.Data.List.Range
import Mathlib.Logic.Relation

/-! Handles over whole runs.
Whoever keeps a handle relies on it later: no operation gives a handle out twice, moves a node to another parent or
brings a freed node back, and a node is freed only with itself or with a node above it.
-/
namespace TreeConsole.Tree
variable {t after later : Tree} {id parent : Handle} {operation : Operation} {answer : Except HostError Value}
variable {queue : List Handle}

/-! What lasts -/

structure Lasts (t after : Tree) : Prop where
  size : t.size ≤ after.size
  parents : ∀ id, id < t.size → after.parent? id = t.parent? id
  dead : ∀ id, id < t.size → after.isLive id → t.isLive id

theorem Lasts.refl (t : Tree) : Lasts t t := ⟨Nat.le_refl _,fun _ _ => rfl,fun _ _ live => live⟩

theorem Lasts.trans (first : Lasts t after) (second : Lasts after later) : Lasts t later where
  size := Nat.le_trans first.size second.size
  parents := fun id inside =>
    (second.parents id (Nat.lt_of_lt_of_le inside first.size)).trans (first.parents id inside)
  dead := fun id inside live => first.dead id inside (second.dead id (Nat.lt_of_lt_of_le inside first.size) live)

theorem size_release (steps : Nat) : (t.release steps queue).size = t.size := by
  induction steps generalizing t queue with
  | zero => rfl
  | succ steps ih =>
    cases queue with
    | nil => rfl
    | cons first rest => rw [release_cons,ih,size_close]

theorem parent?_release (steps : Nat) : (t.release steps queue).parent? id = t.parent? id := by
  induction steps generalizing t queue with
  | zero => rfl
  | succ steps ih =>
    cases queue with
    | nil => rfl
    | cons first rest => rw [release_cons,ih,parent?_close]

theorem isLive_of_release {steps : Nat} (live : (t.release steps queue).isLive id) : t.isLive id := by
  induction steps generalizing t queue with
  | zero => exact live
  | succ steps ih =>
    cases queue with
    | nil => exact live
    | cons first rest =>
      rw [release_cons] at live
      have closed := ih live
      rw [isLive_close,Bool.and_eq_true] at closed
      exact closed.1

theorem Lasts.modify {f : Node → Node} (sameLive : ∀ node, (f node).live = node.live)
    (sameParent : ∀ node, (f node).parent = node.parent) : Lasts t (t.modify id f) where
  size := Nat.le_of_eq size_modify.symm
  parents := fun _ _ => parent?_modify sameParent
  dead := fun _ _ live => (isLive_modify sameLive).symm.trans live

theorem Change.lasts (change : Change t after) : Lasts t after := by
  cases change with
  | none => exact Lasts.refl t
  | sprouted parent name =>
    refine ⟨by rw [size_sprout]; exact Nat.le_succ _,?_,?_⟩
    · intro id inside
      rw [parent?_sprout,if_neg (Nat.ne_of_lt inside)]
    · intro id inside live
      rw [isLive_sprout,Bool.or_eq_true,beq_iff_eq] at live
      exact live.resolve_right (Nat.ne_of_lt inside)
  | renamed => exact Lasts.modify (fun _ => rfl) fun _ => rfl
  | annotated => exact Lasts.modify (fun _ => rfl) fun _ => rfl
  | freed top =>
    refine ⟨by rw [size_release,size_detach],?_,?_⟩
    · intro id _
      rw [parent?_release,parent?_detach]
    · intro id _ live
      exact isLive_detach.symm.trans (isLive_of_release live)

theorem lasts_run (operations : List Operation) : Lasts t (t.run operations) :=
  run_induction (motive := Lasts t) (fun _ _ before change => before.trans change.lasts) operations (Lasts.refl t)

theorem run_append (first second : List Operation) : t.run (first ++ second) = (t.run first).run second :=
  List.foldl_append

/-! What is freed -/

/-- A node is under itself and under the nodes that parent links lead to from it. -/
def Under (t : Tree) : Handle → Handle → Prop := Relation.ReflTransGen fun id parent => t.parent? id = some parent

theorem under_close (first : Handle) : (t.close first).Under = t.Under := by
  unfold Under
  simp only [parent?_close]

theorem under_detach (top : Handle) : (t.detach top).Under = t.Under := by
  unfold Under
  simp only [parent?_detach]

/-- What dies while the queue is drained is under a queued node. -/
theorem Draining.under_of_release (draining : t.Draining queue) {steps : Nat} (live : t.isLive id)
    (dead : ¬ (t.release steps queue).isLive id) : ∃ top ∈ queue, t.Under id top := by
  induction steps generalizing t queue with
  | zero => exact absurd live dead
  | succ steps ih =>
    cases queue with
    | nil => exact absurd live dead
    | cons first rest =>
      rw [release_cons] at dead
      -- A node that dies later is under one queued behind the first, or under a child of the first.
      by_cases same : id = first
      · exact ⟨first,List.mem_cons_self,same ▸ .refl⟩
      · have alive : (t.close first).isLive id := by simp [isLive_close,live,same]
        obtain ⟨top,member,under⟩ := ih draining.close alive dead
        rw [under_close] at under
        rcases List.mem_append.mp member with queued | child
        · exact ⟨top,List.mem_cons_of_mem first queued,under⟩
        · have liveFirst := (draining.queuedLive first List.mem_cons_self).1
          have isParent := ((draining.childrenExact first top liveFirst).mp child).2.1
          exact ⟨first,List.mem_cons_self,under.tail isParent⟩

theorem WellFormed.under_of_free (wellFormed : t.WellFormed) {top : Handle} (liveTop : t.isLive top)
    (inner : top ≠ root) (live : t.isLive id) (dead : ¬ ((t.detach top).release t.size [top]).isLive id) : t.Under id top := by
  have alive : (t.detach top).isLive id := isLive_detach.trans live
  obtain ⟨queued,member,under⟩ := (wellFormed.detach liveTop inner).under_of_release alive dead
  rw [under_detach,List.mem_singleton.mp member] at under
  exact under

/-- A step in which a node stops being live succeeds in freeing a node that this one is under. -/
theorem Step.frees_of_dead (step : Step t operation after answer) (wellFormed : t.WellFormed) (live : t.isLive id)
    (dead : ¬ after.isLive id) : ∃ top, operation.Frees top ∧ answer = .ok .null ∧ t.Under id top := by
  cases step with
  | refused => exact absurd live dead
  | asked => exact absurd live dead
  | added =>
    rw [isLive_sprout,live] at dead
    exact absurd rfl dead
  | renamed | annotated =>
    rw [isLive_modify (by intro _; rfl)] at dead
    exact absurd live dead
  | freed frees liveTop inner => exact ⟨_,frees,rfl,wellFormed.under_of_free liveTop inner live dead⟩

/-- A handle that was given out, and whose node is not live any more. -/
def Freed (t : Tree) (id : Handle) : Prop := id < t.size ∧ ¬ t.isLive id

theorem Freed.lasts (freed : t.Freed id) (lasts : Lasts t after) : after.Freed id :=
  ⟨Nat.lt_of_lt_of_le freed.1 lasts.size,fun live => freed.2 (lasts.dead id freed.1 live)⟩

theorem Freed.run (freed : t.Freed id) (operations : List Operation) : (t.run operations).Freed id :=
  freed.lasts (lasts_run operations)

theorem freed_run {operations : List Operation} (live : t.isLive id) (dead : ¬ (t.run operations).isLive id) :
    (t.run operations).Freed id :=
  ⟨Nat.lt_of_lt_of_le (lt_size_of_isLive live) (lasts_run operations).size,dead⟩

theorem Step.isLive_of_new (step : Step t operation after answer) (new : t.size ≤ id) (inside : id < after.size) :
    after.isLive id := by
  cases step with
  | refused => exact absurd inside (Nat.not_lt_of_le new)
  | asked => exact absurd inside (Nat.not_lt_of_le new)
  | added =>
    rw [size_sprout] at inside
    have last : id = t.size := Nat.le_antisymm (Nat.le_of_lt_succ inside) new
    simp [isLive_sprout,last]
  | renamed | annotated =>
    rw [size_modify] at inside
    exact absurd inside (Nat.not_lt_of_le new)
  | freed =>
    rw [size_release,size_detach] at inside
    exact absurd inside (Nat.not_lt_of_le new)

/-- In a reachable tree the freed handles are those of nodes that were live before. -/
theorem freed_iff (operations : List Operation) : (new.run operations).Freed id ↔
    ∃ before after, operations = before ++ after ∧ (new.run before).isLive id ∧
      ¬ (new.run operations).isLive id := by
  constructor
  · intro freed
    induction operations using List.reverseRecOn with
    | nil =>
      have top : id = root := Nat.lt_one_iff.mp freed.1
      exact absurd (top ▸ wellFormed_new.rootLive) freed.2
    | append_singleton before operation ih =>
      have step := apply_step (new.run before) operation
      rw [run_append] at freed ⊢
      -- The node died in the last step, or before it; a node that this step made is live.
      by_cases inside : id < (new.run before).size
      · by_cases live : (new.run before).isLive id
        · exact ⟨before,[operation],rfl,live,freed.2⟩
        · obtain ⟨first,rest,rfl,live,_⟩ := ih ⟨inside,live⟩
          exact ⟨first,rest ++ [operation],List.append_assoc _ _ _,live,freed.2⟩
      · exact absurd (step.isLive_of_new (Nat.le_of_not_lt inside) freed.1) freed.2
  · rintro ⟨before,after,rfl,live,dead⟩
    rw [run_append] at dead ⊢
    exact freed_run live dead

/-! What is given out -/

def Operation.isAddition : Operation → Bool
  | .addChild .. => true
  | .invoke _ method _ => method == Method.addChild.name
  | .free _ => false

def addition? (t : Tree) (operation : Operation) : Option Value :=
  if operation.isAddition then (t.apply operation).2.toOption else none

/-- The answers of the additions that succeed, in order. -/
def additions (t : Tree) : List Operation → List Value
  | [] => []
  | operation :: rest => (t.addition? operation).toList ++ (t.apply operation).1.additions rest

theorem Operation.Adds.isAddition {name : String} (adds : operation.Adds parent name) : operation.isAddition = true := by
  cases adds <;> rfl

theorem Operation.Frees.not_isAddition (frees : operation.Frees id) : operation.isAddition = false := by
  cases frees <;> rfl

/-- A successful addition gives out the next handle, and nothing else makes a node. -/
theorem Step.addition_cases (step : Step t operation after answer) :
    (if operation.isAddition then answer.toOption else none) = none ∧ after.size = t.size ∨
      operation.isAddition = true ∧ answer = .ok (.object t.size) ∧ after.size = t.size + 1 := by
  cases step with
  | refused => exact .inl ⟨ite_self _,rfl⟩
  | @asked id method args v query =>
    have other : (Operation.invoke id method.name args).isAddition = false := by
      cases method with
      | addChild => cases query
      | _ => rfl
    exact .inl ⟨by rw [other]; rfl,rfl⟩
  | added adds => exact .inr ⟨adds.isAddition,rfl,size_sprout⟩
  | renamed | annotated => exact .inl ⟨rfl,size_modify⟩
  | freed frees => exact .inl ⟨by rw [frees.not_isAddition]; rfl,by rw [size_release,size_detach]⟩

theorem addition?_cases (t : Tree) (operation : Operation) :
    t.addition? operation = none ∧ (t.apply operation).1.size = t.size ∨
      t.addition? operation = some (.object t.size) ∧ (t.apply operation).1.size = t.size + 1 := by
  rcases (apply_step t operation).addition_cases with nothing | ⟨adds,answered,grown⟩
  · exact .inl nothing
  · exact .inr ⟨by rw [addition?,if_pos adds,answered]; rfl,grown⟩

theorem run_cons (operations : List Operation) :
    t.run (operation :: operations) = (t.apply operation).1.run operations := rfl

/-- The handles given out are the next ones, in order. -/
theorem additions_eq (operations : List Operation) :
    t.additions operations = (List.range' t.size (t.additions operations).length).map Value.object ∧
      (t.run operations).size = t.size + (t.additions operations).length := by
  induction operations generalizing t with
  | nil => exact ⟨rfl,rfl⟩
  | cons operation rest ih =>
    obtain ⟨given,grown⟩ := @ih (t.apply operation).1
    rw [run_cons]
    unfold additions
    rcases addition?_cases t operation with ⟨nothing,same⟩ | ⟨next,larger⟩
    · rw [same] at given grown
      rw [nothing]
      exact ⟨given,grown⟩
    · rw [larger] at given grown
      simp only [next,Option.toList_some,List.singleton_append,List.length_cons]
      rw [List.range'_succ,List.map_cons,← given]
      exact ⟨rfl,by omega⟩

theorem mem_additions_lt (operations : List Operation) (member : .object id ∈ t.additions operations) :
    id < (t.run operations).size := by
  obtain ⟨given,grown⟩ := @additions_eq t operations
  rw [given] at member
  obtain ⟨other,inside,same⟩ := List.mem_map.mp member
  cases same
  rw [grown]
  exact (List.mem_range'_1.mp inside).2

/-- Over every run of operations a successful addition answers the count of the nodes made so far, which no addition
answered before; a node keeps its parent and stays dead once it was freed; it stops being live only when it or a node
above it is freed; and the root is always live. -/
theorem handles_permanent (before : List Operation) :
    (new.run before).isLive root ∧
    (∀ operation answer, operation.isAddition → ((new.run before).apply operation).2 = .ok answer →
      answer = .object (1 + (new.additions before).length) ∧ answer ∉ new.additions before) ∧
    (∀ operation id, (new.run before).isLive id → ¬ ((new.run before).apply operation).1.isLive id →
      ∃ top, operation.Frees top ∧ ((new.run before).apply operation).2 = .ok .null ∧ (new.run before).Under id top) ∧
    (∀ between id, id < (new.run before).size →
      (new.run (before ++ between)).parent? id = (new.run before).parent? id) ∧
    ∀ between after id, (new.run before).isLive id → ¬ (new.run (before ++ between)).isLive id →
      ¬ (new.run (before ++ between ++ after)).isLive id := by
  have wellFormed := wellFormed_run before
  refine ⟨wellFormed.rootLive,?_,?_,?_,?_⟩
  · intro operation answer adds answered
    obtain ⟨_,grown⟩ := @additions_eq new before
    have fresh : answer = .object (new.run before).size := by
      rcases (apply_step (new.run before) operation).addition_cases with ⟨nothing,_⟩ | ⟨_,given,_⟩
      · rw [if_pos adds,answered] at nothing
        cases nothing
      · exact Except.ok.inj (answered.symm.trans given)
    subst fresh
    refine ⟨congrArg Value.object grown,?_⟩
    intro member
    exact Nat.lt_irrefl _ (mem_additions_lt before member)
  · intro operation id live dead
    exact (apply_step (new.run before) operation).frees_of_dead wellFormed live dead
  · intro between id inside
    rw [run_append]
    exact (lasts_run between).parents id inside
  · intro between after id live dead revived
    rw [run_append (before ++ between)] at revived
    have freed : (new.run (before ++ between)).Freed id := by
      rw [run_append] at dead ⊢
      exact freed_run live dead
    exact (freed.run after).2 revived

def grown : List Operation := [.addChild root "a",.invoke 1 "add_child" [.string "b"]]

/-- A node that is freed takes the node below it along, and a new one of its name is another node. -/
theorem handles_permanent_replaced :
    (∃ top, (Operation.invoke 1 "free" []).Frees top ∧ (new.run grown).Under 2 top) ∧
    ((new.run (grown ++ [.invoke 1 "free" []])).apply (.addChild root "a")).2 = .ok (.object 3) ∧
    .object 3 ∉ new.additions (grown ++ [.invoke 1 "free" []]) ∧
    ¬ (new.run (grown ++ [.invoke 1 "free" []] ++ [.addChild root "a"])).isLive 2 := by
  obtain ⟨_,_,freed,_,stays⟩ := handles_permanent grown
  obtain ⟨_,given,_⟩ := handles_permanent (grown ++ [.invoke 1 "free" []])
  obtain ⟨top,frees,_,under⟩ := freed (.invoke 1 "free" []) 2 rfl (by decide)
  refine ⟨⟨top,frees,under⟩,rfl,?_,?_⟩
  · exact (given (.addChild root "a") (.object 3) rfl rfl).2
  · exact stays [.invoke 1 "free" []] [.addChild root "a"] 2 rfl (by decide)

end TreeConsole.Tree
