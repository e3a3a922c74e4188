import TreeConsole.Proofs.Tree.History
import Mathlib.Data.List.Nodup

/-! Subtrees that are freed.
Freeing a node takes the nodes under it along, and no others. What is left is as it was, but for the parent, which
loses one child from its list.
-/
namespace TreeConsole.Tree
variable {t after : Tree} {id top other parent : Handle} {queue : List Handle}

/-- The tree after a node was cut off with all that was live under it. -/
structure Cut (t : Tree) (top : Handle) (after : Tree) : Prop where
  size : after.size = t.size
  dies : ∀ id, t.isLive id ∧ ¬ after.isLive id ↔ t.isLive id ∧ t.Under id top
  spares : ∀ id, ¬ (t.isLive id ∧ t.Under id top) → t.parent? top ≠ some id → after.node? id = t.node? id
  unlinks : ∃ parent node before behind, t.parent? top = some parent ∧ t.node? parent = some node ∧
    node.children = before ++ top :: behind ∧ top ∉ before ++ behind ∧
    after.node? parent = some { node with children := before ++ behind }
  remembers : ∀ id, after.nameOf id = t.nameOf id ∧ after.parent? id = t.parent? id

/-! Draining the queue -/

theorem node?_close (different : other ≠ id) : (t.close id).node? other = t.node? other := by
  rw [close,node?_modify,if_neg different]

/-- A node that is not live under a queued node is not touched. -/
theorem Draining.node?_release (draining : t.Draining queue) {steps : Nat}
    (spared : ∀ top ∈ queue, ¬ (t.isLive id ∧ t.Under id top)) : (t.release steps queue).node? id = t.node? id := by
  induction steps generalizing t queue with
  | zero => rfl
  | succ steps ih =>
    cases queue with
    | nil => rfl
    | cons first rest =>
      have liveFirst := (draining.queuedLive first List.mem_cons_self).1
      have different : id ≠ first := by
        rintro rfl
        exact spared id List.mem_cons_self ⟨liveFirst,.refl⟩
      rw [release_cons,ih draining.close ?_,node?_close different]
      rintro top member ⟨live,under⟩
      rw [isLive_close,Bool.and_eq_true] at live
      rw [under_close] at under
      rcases List.mem_append.mp member with queued | child
      · exact spared top (List.mem_cons_of_mem first queued) ⟨live.1,under⟩
      · have isParent := ((draining.childrenExact first top liveFirst).mp child).2.1
        exact spared first List.mem_cons_self ⟨live.1,under.tail isParent⟩

theorem nameOf_release (steps : Nat) : (t.release steps queue).nameOf id = t.nameOf id := by
  induction steps generalizing t queue with
  | zero => rfl
  | succ steps ih =>
    cases queue with
    | nil => rfl
    | cons first rest => rw [release_cons,ih,nameOf_close]

theorem not_isLive_release {steps : Nat} (some : 0 < steps) : ¬ (t.release steps (id :: queue)).isLive id := by
  obtain ⟨fewer,rfl⟩ := Nat.exists_eq_add_one_of_ne_zero (Nat.ne_of_gt some)
  intro live
  rw [release_cons] at live
  have closed := isLive_of_release live
  simp [isLive_close] at closed

/-! Parents and what is under them -/

theorem WellFormed.isLive_of_under (wellFormed : t.WellFormed) (live : t.isLive id) (under : t.Under id top) :
    t.isLive top := by
  induction under with
  | refl => exact live
  | tail _ isParent ih => exact wellFormed.parentLive _ _ ih isParent

theorem Layout.le_of_under (layout : t.Layout) (under : t.Under id top) : top ≤ id := by
  induction under with
  | refl => exact Nat.le_refl _
  | tail _ isParent ih => exact Nat.le_trans (Nat.le_of_lt (layout.parent_lt isParent)) ih

theorem node?_detach (isParent : t.parent? id = some parent) : (t.detach id).node? other =
    if other = parent then (t.node? other).map fun node => { node with children := node.children.filter (· != id) }
    else t.node? other := by
  have isParent : (t.node? id).bind Node.parent = some parent := isParent
  simp only [detach,isParent]
  exact node?_modify

/-! Freeing -/

theorem free_eq_error_iff : (∃ error, t.free id = .error error) ↔ ¬ t.isLive id ∨ id = root := by
  cases result : t.free id with
  | error error =>
    refine iff_of_true ⟨error,rfl⟩ (Decidable.byContradiction fun passes => ?_)
    obtain ⟨live,inner⟩ := not_or.mp passes
    have freed := free_eq_ok_iff.mpr ⟨not_not.mp live,inner,rfl⟩
    rw [result] at freed
    cases freed
  | ok after =>
    obtain ⟨live,inner,_⟩ := free_eq_ok_iff.mp result
    exact iff_of_false (by simp) (by simp [live,inner])

theorem WellFormed.cut (wellFormed : t.WellFormed) (live : t.isLive top) (inner : top ≠ root) :
    Cut t top ((t.detach top).release t.size [top]) := by
  have draining := wellFormed.detach live inner
  obtain ⟨parent,isParent,below⟩ := wellFormed.parentBelow top (lt_size_of_isLive live) inner
  have liveParent := wellFormed.parentLive top parent live isParent
  have spared (id : Handle) (outside : ¬ (t.isLive id ∧ t.Under id top)) :
      ((t.detach top).release t.size [top]).node? id = (t.detach top).node? id := by
    refine draining.node?_release fun queued member => ?_
    rw [List.mem_singleton.mp member,isLive_detach,under_detach]
    exact outside
  refine ⟨by rw [size_release,size_detach],?dies,?spares,?unlinks,?remembers⟩
  case dies =>
    intro id
    refine and_congr_right fun alive => ⟨wellFormed.under_of_free live inner alive,fun under survived => ?_⟩
    -- All that is above a live node is live, and the top is not.
    have still : ((t.detach top).release t.size [top]).Under = t.Under := by
      unfold Under
      simp only [parent?_release,parent?_detach]
    have standing := (wellFormed.free live inner).isLive_of_under survived (still ▸ under)
    exact not_isLive_release (Nat.zero_lt_of_lt (lt_size_of_isLive live)) standing
  case spares =>
    intro id outside notParent
    rw [spared id outside,node?_detach isParent,if_neg]
    rintro rfl
    exact notParent isParent
  case unlinks =>
    obtain ⟨node,found,_⟩ := isLive_iff.mp liveParent
    have listed := children_of_node? found
    have member := (wellFormed.childrenExact parent top liveParent).mpr ⟨live,isParent⟩
    have distinct := (wellFormed.childrenOrdered parent).imp Nat.ne_of_lt
    rw [listed] at member distinct
    obtain ⟨before,behind,_,whole,left⟩ := List.exists_erase_eq member
    have absent : top ∉ before ++ behind := (List.nodup_middle.mp (whole ▸ distinct)).notMem
    rw [List.Nodup.erase_eq_filter distinct] at left
    have outside : ¬ (t.isLive parent ∧ t.Under parent top) := fun inside =>
      absurd (wellFormed.le_of_under inside.2) (Nat.not_le_of_lt below)
    refine ⟨parent,node,before,behind,isParent,found,whole,absent,?_⟩
    rw [spared parent outside,node?_detach isParent,if_pos rfl,found,Option.map_some,left]
  case remembers =>
    intro id
    rw [nameOf_release,nameOf_detach,parent?_release,parent?_detach]
    exact ⟨rfl,rfl⟩

/-- In every reachable tree freeing a node ends the life of this node and of the live nodes under it, leaves every other
node as it was and takes one entry out of the parent's children. It fails, and changes nothing, exactly when the node is
not live or is the root. -/
theorem free_cuts_subtree (operations : List Operation) (id : Handle) :
    ((∃ error, (new.run operations).free id = .error error) ↔ ¬ (new.run operations).isLive id ∨ id = root) ∧
    (∀ error, (new.run operations).free id = .error error →
      (new.run operations).apply (.free id) = (new.run operations,.error error)) ∧
    ∀ after, (new.run operations).free id = .ok after →
      (new.run operations).apply (.free id) = (after,.ok .null) ∧ Cut (new.run operations) id after := by
  refine ⟨free_eq_error_iff,?_,?_⟩
  · intro error refused
    rw [apply,refused]
  · intro after freed
    obtain ⟨live,inner,same⟩ := free_eq_ok_iff.mp freed
    refine ⟨by rw [apply,freed],?_⟩
    rw [same]
    exact (wellFormed_run operations).cut live inner

/-- The root has the children one, two and four. Three is under two, five and six are under three, and six is dead. -/
def branching : List Operation :=
  [.addChild root "a",.addChild root "b",.addChild 2 "c",.addChild root "d",.addChild 3 "e",.addChild 3 "f",.free 6]

theorem free_cuts_subtree_branching :
    (∃ after, (new.run branching).free 2 = .ok after ∧ Cut (new.run branching) 2 after ∧ ¬ after.isLive 5 ∧
      after.isLive 1 ∧ after.children root = [1,4]) ∧
    ∃ error, (new.run branching).apply (.free 6) = (new.run branching,.error error) := by
  obtain ⟨_,_,freed⟩ := free_cuts_subtree branching 2
  obtain ⟨refused,unchanged,_⟩ := free_cuts_subtree branching 6
  obtain ⟨error,failed⟩ := refused.mpr (.inl (by decide))
  exact ⟨⟨_,rfl,(freed _ rfl).2,by decide,by decide,by decide⟩,error,unchanged error failed⟩

end TreeConsole.Tree
