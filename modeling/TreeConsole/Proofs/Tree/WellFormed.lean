import TreeConsole.Proofs.Rounds
import TreeConsole.Proofs.Tree.Change
import Mathlib.Data.List.Perm.Subperm

/-! Well-formed trees.
Liveness, parents, lists of children and names are kept apart and have to agree. They do in the new tree and
after every change; while a subtree is being freed they agree up to the queue of nodes still to be closed, and no node is
queued twice.
-/
namespace TreeConsole.Tree

/-- What holds of the nodes one by one and of siblings, also while a subtree is being freed. -/
structure Layout (t : Tree) : Prop where
  rootLive : t.isLive root
  rootParent : t.parent? root = none
  parentBelow : ∀ id, id < t.size → id ≠ root → ∃ parent, t.parent? id = some parent ∧ parent < id
  childrenOrdered : ∀ id, (t.children id).Pairwise (· < ·)
  deadEmpty : ∀ id, ¬ t.isLive id → t.children id = []
  properNames : ∀ id, id < t.size → ProperName (t.nameOf id)
  siblingNames : ∀ a b parent, t.isLive a → t.isLive b → t.parent? a = some parent → t.parent? b = some parent →
    t.nameOf a = t.nameOf b → a = b

structure WellFormed (t : Tree) : Prop extends Layout t where
  parentLive : ∀ id parent, t.isLive id → t.parent? id = some parent → t.isLive parent
  childrenExact : ∀ id child, t.isLive id → (child ∈ t.children id ↔ t.isLive child ∧ t.parent? child = some id)

/-- A tree cut off at the queued nodes: they are live, but no list of children has them. -/
structure Draining (t : Tree) (queue : List Handle) : Prop extends Layout t where
  parentLive : ∀ id parent, t.isLive id → t.parent? id = some parent → id ∉ queue → t.isLive parent
  childrenExact : ∀ id child, t.isLive id →
    (child ∈ t.children id ↔ t.isLive child ∧ t.parent? child = some id ∧ child ∉ queue)
  queuedLive : ∀ id ∈ queue, t.isLive id ∧ id ≠ root
  queuedOnce : queue.Nodup

variable {t after left : Tree} {id parent child : Handle} {name : String} {queue seen ids : List Handle}
variable {rounds : List (Round Handle)}

theorem Draining.wellFormed (draining : t.Draining []) : t.WellFormed where
  toLayout := draining.toLayout
  parentLive := fun id parent live isParent => draining.parentLive id parent live isParent (by simp)
  childrenExact := fun id child live => by simpa using draining.childrenExact id child live

theorem Layout.parent_lt (layout : t.Layout) (isParent : t.parent? id = some parent) : parent < id := by
  have inner : id ≠ root := by
    rintro rfl
    simp [layout.rootParent] at isParent
  obtain ⟨above,isAbove,below⟩ := layout.parentBelow id (lt_size_of_parent? isParent) inner
  rw [isParent] at isAbove
  cases isAbove
  exact below

/-- Taking liveness and children away keeps the layout. -/
theorem Layout.prune {pruned : Tree} (layout : t.Layout) (size : pruned.size = t.size)
    (parents : ∀ id, pruned.parent? id = t.parent? id) (names : ∀ id, pruned.nameOf id = t.nameOf id)
    (live : ∀ id, pruned.isLive id → t.isLive id) (rootLive : pruned.isLive root)
    (fewer : ∀ id, (pruned.children id).Sublist (t.children id))
    (deadEmpty : ∀ id, ¬ pruned.isLive id → pruned.children id = []) : pruned.Layout where
  rootLive := rootLive
  rootParent := by rw [parents]; exact layout.rootParent
  parentBelow := by simpa only [size,parents] using layout.parentBelow
  childrenOrdered := fun id => (layout.childrenOrdered id).sublist (fewer id)
  deadEmpty := deadEmpty
  properNames := by simpa only [size,names] using layout.properNames
  siblingNames := by
    intro a b parent liveA liveB
    simp only [parents,names]
    exact layout.siblingNames a b parent (live a liveA) (live b liveB)

/-! The new tree -/

theorem node?_new : new.node? id = if id = root then some (newNode "root" none) else none := by
  cases id <;> rfl

theorem wellFormed_new : new.WellFormed := by
  have live (id : Handle) : new.isLive id = true ↔ id = root := by
    rw [isLive_eq_field,node?_new]
    split <;> simp_all [newNode]
  have noChildren (id : Handle) : new.children id = [] := by
    rw [children,node?_new]
    split <;> rfl
  have noParent (id : Handle) : new.parent? id = none := by
    rw [parent?,node?_new]
    split <;> rfl
  refine ⟨⟨rfl,rfl,?_,?_,?_,?_,?_⟩,?_,?_⟩
  · intro id inside inner
    exact absurd (Nat.lt_one_iff.mp inside) inner
  · simp [noChildren]
  · simp [noChildren]
  · intro id inside
    obtain rfl : id = root := Nat.lt_one_iff.mp inside
    exact ⟨by decide,by decide,by decide,by decide⟩
  · simp [noParent]
  · simp [noParent]
  · simp [noChildren,noParent]

/-! Freeing -/

/-- Nodes of a tree, none of them listed twice. -/
structure Distinct (t : Tree) (ids : List Handle) : Prop where
  once : ids.Nodup
  nodes : ∀ id ∈ ids, id < t.size

theorem Distinct.length_le (distinct : t.Distinct ids) : ids.length ≤ t.size := by
  have inside : ids ⊆ List.range t.size := fun id member => List.mem_range.mpr (distinct.nodes id member)
  simpa using (List.subperm_of_subset distinct.once inside).length_le

/-- A loop that queues no node twice makes as many rounds as there are nodes, or fewer. -/
theorem Distinct.rounds_le {σ : Type} {body : σ → Handle → σ × Option (List Handle)} {first last : σ}
    (distinct : t.Distinct (queue ++ rounds.flatMap Round.added)) (run : Rounds body first queue rounds last) :
    rounds.length ≤ t.size := by
  simpa using Nat.le_trans run.taken_prefix.length_le distinct.length_le

/-- Closes a node and goes on with the children that it had. -/
def closeRound (t : Tree) (id : Handle) : Tree × Option (List Handle) := (t.close id,some (t.children id))

theorem release_eq_cutOff (steps : Nat) (queue : List Handle) : t.release steps queue = cutOff closeRound steps t queue := by
  induction steps generalizing t queue with
  | zero => rfl
  | succ steps ih =>
    cases queue with
    | nil => rfl
    | cons id queue => rw [release_cons,ih]; rfl

/-- Closing the first queued node puts its children at the end of the queue, and the rest still agrees. -/
theorem Draining.close (draining : t.Draining (id :: queue)) : (t.close id).Draining (queue ++ t.children id) := by
  obtain ⟨live,inner⟩ := draining.queuedLive id (by simp)
  have inside := lt_size_of_isLive live
  obtain ⟨notQueued,once⟩ := List.nodup_cons.mp draining.queuedOnce
  have mine (other : Handle) := draining.childrenExact id other live
  have alive (other : Handle) : (t.close id).isLive other ↔ t.isLive other ∧ other ≠ id := by simp [isLive_close]
  refine ⟨?layout,?parentLive,?childrenExact,?queuedLive,?queuedOnce⟩
  case layout =>
    refine draining.prune size_close (fun _ => parent?_close) (fun _ => nameOf_close)
      (fun other after => ((alive other).mp after).1) ((alive _).mpr ⟨draining.rootLive,Ne.symm inner⟩) ?_ ?_
    · intro other
      rw [children_close inside]
      split
      · exact List.nil_sublist _
      · exact List.Sublist.refl _
    · intro other dead
      rw [children_close inside]
      split
      · rfl
      next different => exact draining.deadEmpty other fun live => dead ((alive _).mpr ⟨live,different⟩)
  case parentLive =>
    intro other parent liveAfter isParent absent
    rw [parent?_close] at isParent
    obtain ⟨liveOther,different⟩ := (alive _).mp liveAfter
    simp only [List.mem_append,not_or] at absent
    have unqueued : other ∉ id :: queue := by simp [different,absent.1]
    refine (alive _).mpr ⟨draining.parentLive other parent liveOther isParent unqueued,?_⟩
    -- A live child of the closed node was in its list, so it is queued now.
    rintro rfl
    exact absent.2 ((mine other).mpr ⟨liveOther,isParent,unqueued⟩)
  case childrenExact =>
    intro other grandchild liveAfter
    obtain ⟨liveOther,different⟩ := (alive _).mp liveAfter
    rw [children_close inside,if_neg different,draining.childrenExact other grandchild liveOther,parent?_close,alive]
    simp only [List.mem_cons,List.mem_append,not_or]
    constructor
    · rintro ⟨liveChild,isParent,notFirst,notLater⟩
      refine ⟨⟨liveChild,notFirst⟩,isParent,notLater,?_⟩
      intro member
      have := ((mine grandchild).mp member).2.1
      rw [isParent] at this
      exact different (Option.some.inj this)
    · rintro ⟨⟨liveChild,notFirst⟩,isParent,notLater,_⟩
      exact ⟨liveChild,isParent,notFirst,notLater⟩
  case queuedLive =>
    intro other member
    rcases List.mem_append.mp member with later | below
    · obtain ⟨liveOther,innerOther⟩ := draining.queuedLive other (by simp [later])
      exact ⟨(alive _).mpr ⟨liveOther,fun same => notQueued (same ▸ later)⟩,innerOther⟩
    · obtain ⟨liveOther,isParent,_⟩ := (mine other).mp below
      have deeper := draining.parent_lt isParent
      exact ⟨(alive _).mpr ⟨liveOther,Nat.ne_of_gt deeper⟩,Nat.ne_of_gt (Nat.zero_lt_of_lt deeper)⟩
  case queuedOnce =>
    refine List.nodup_append.mpr ⟨once,(draining.childrenOrdered id).imp Nat.ne_of_lt,?_⟩
    rintro other later _ below rfl
    have := ((mine other).mp below).2.2
    simp [later] at this

theorem Draining.wellFormed_of_rounds (draining : t.Draining queue) (run : Rounds closeRound t queue rounds after) :
    after.WellFormed := by
  induction run with
  | emptied => exact draining.wellFormed
  | ended ends => cases ends
  | continued goesOn _ ih =>
    cases goesOn
    exact ih draining.close

theorem WellFormed.detach (wellFormed : t.WellFormed) (live : t.isLive id) (inner : id ≠ root) :
    (t.detach id).Draining [id] := by
  obtain ⟨parent,isParent,_⟩ := wellFormed.parentBelow id (lt_size_of_isLive live) inner
  have liveParent := wellFormed.parentLive id parent live isParent
  have listed (other : Handle) : (t.detach id).children other =
      if other = parent then (t.children parent).filter (· != id) else t.children other :=
    children_detach isParent (lt_size_of_isLive liveParent)
  refine ⟨?layout,?parentLive,?childrenExact,?queuedLive,by simp⟩
  case layout =>
    refine wellFormed.prune size_detach (fun _ => parent?_detach) (fun _ => nameOf_detach)
      (fun other => by simp [isLive_detach]) (by simpa [isLive_detach] using wellFormed.rootLive) ?_ ?_
    · intro other
      rw [listed]
      split
      next same => subst same; exact List.filter_sublist
      next => exact List.Sublist.refl _
    · intro other dead
      rw [isLive_detach] at dead
      rw [listed,if_neg (by rintro rfl; exact dead liveParent)]
      exact wellFormed.deadEmpty other dead
  case parentLive =>
    intro other above
    simp only [isLive_detach,parent?_detach]
    exact fun liveOther isAbove _ => wellFormed.parentLive other above liveOther isAbove
  case childrenExact =>
    intro other child
    simp only [isLive_detach,parent?_detach,listed,List.mem_singleton]
    intro liveOther
    split
    next same =>
      subst same
      simp [wellFormed.childrenExact other child liveOther,and_assoc]
    next different =>
      rw [wellFormed.childrenExact other child liveOther]
      refine ⟨fun ⟨liveChild,above⟩ => ⟨liveChild,above,?_⟩,fun ⟨liveChild,above,_⟩ => ⟨liveChild,above⟩⟩
      rintro rfl
      rw [isParent] at above
      exact different (Option.some.inj above).symm
  case queuedLive =>
    intro other member
    rw [List.mem_singleton] at member
    rw [member,isLive_detach]
    exact ⟨live,inner⟩

/-- A subtree in the middle of being freed: what was taken is dead, and what waits is live. -/
structure Freeing (t : Tree) (seen : List Handle) (left : Tree) (queue : List Handle) : Prop where
  draining : left.Draining queue
  size : left.size = t.size
  dead : ∀ id ∈ seen, ¬ left.isLive id
  distinct : t.Distinct (seen ++ queue)

theorem Freeing.close (freeing : t.Freeing seen left (id :: queue)) :
    t.Freeing (seen ++ [id]) (left.close id) (queue ++ left.children id) := by
  have draining := freeing.draining.close
  have dead : ∀ other ∈ seen ++ [id], ¬ (left.close id).isLive other := by
    intro other member live
    rw [isLive_close,Bool.and_eq_true,bne_iff_ne] at live
    rcases List.mem_append.mp member with old | last
    · exact freeing.dead other old live.1
    · exact live.2 (List.mem_singleton.mp last)
  have whole : seen ++ id :: queue = seen ++ [id] ++ queue := by simp
  obtain ⟨once,nodes⟩ := whole ▸ freeing.distinct
  refine ⟨draining,size_close.trans freeing.size,dead,?once,?nodes⟩
  case once =>
    refine List.nodup_append.mpr ⟨(List.nodup_append.mp once).1,draining.queuedOnce,?_⟩
    rintro other taken _ queued rfl
    exact dead other taken (draining.queuedLive other queued).1
  case nodes =>
    intro other member
    rcases List.mem_append.mp member with taken | queued
    · exact nodes other (List.mem_append_left _ taken)
    · have inside := lt_size_of_isLive (draining.queuedLive other queued).1
      rwa [size_close,freeing.size] at inside

theorem WellFormed.free_ends (wellFormed : t.WellFormed) (live : t.isLive id) (inner : id ≠ root) : ∃ rounds after,
    Rounds closeRound (t.detach id) [id] rounds after ∧ t.Distinct ([id] ++ rounds.flatMap Round.added) := by
  refine exists_rounds (motive := t.Freeing) ?_ Freeing.distinct Distinct.length_le ?_
  · rintro seen left first queue _ _ freeing goesOn
    cases goesOn
    exact freeing.close
  · exact ⟨wellFormed.detach live inner,size_detach,by simp,by simp,by simpa using lt_size_of_isLive live⟩

theorem WellFormed.free (wellFormed : t.WellFormed) (live : t.isLive id) (inner : id ≠ root) :
    ((t.detach id).release t.size [id]).WellFormed := by
  obtain ⟨rounds,after,run,distinct⟩ := wellFormed.free_ends live inner
  rw [release_eq_cutOff,run.cutOff_eq (distinct.rounds_le run)]
  exact (wellFormed.detach live inner).wellFormed_of_rounds run

/-! Growing, naming and annotating -/

theorem WellFormed.mem_children_iff (wellFormed : t.WellFormed) :
    child ∈ t.children id ↔ t.isLive child ∧ t.parent? child = some id := by
  by_cases live : t.isLive id
  · exact wellFormed.childrenExact id child live
  · rw [wellFormed.deadEmpty id live]
    refine iff_of_false List.not_mem_nil ?_
    rintro ⟨liveChild,isParent⟩
    exact live (wellFormed.parentLive child id liveChild isParent)

/-- A child that a lookup finds is live, below the parent and has the name; siblings make it the only one. -/
theorem WellFormed.child?_eq_some_iff (wellFormed : t.WellFormed) : t.child? parent name = some child ↔
    t.isLive parent ∧ t.isLive child ∧ t.parent? child = some parent ∧ t.nameOf child = name := by
  constructor
  · intro found
    obtain ⟨node,live,found⟩ := Option.bind_eq_some_iff.mp found
    have liveParent := isLive_of_liveNode? live
    have member := List.mem_of_find?_eq_some found
    rw [← children_of_node? (liveNode?_eq_some_iff.mp live).1] at member
    obtain ⟨liveChild,isParent⟩ := (wellFormed.childrenExact parent child liveParent).mp member
    have named := name?_eq_some_iff.mp (by simpa using List.find?_some found)
    exact ⟨liveParent,liveChild,isParent,named.2⟩
  · rintro ⟨liveParent,liveChild,isParent,named⟩
    obtain ⟨node,inside,alive⟩ := isLive_iff.mp liveParent
    have member := (wellFormed.childrenExact parent child liveParent).mpr ⟨liveChild,isParent⟩
    rw [children_of_node? inside] at member
    rw [child?,liveNode?_eq_some_iff.mpr ⟨inside,alive⟩,Option.bind_some]
    have matched : (t.name? child == some name) = true := by
      simpa using name?_eq_some_iff.mpr ⟨liveChild,named⟩
    cases found : node.children.find? fun id => t.name? id == some name with
    | none => exact absurd matched (by simpa using List.find?_eq_none.mp found child member)
    | some first =>
      have firstMember := List.mem_of_find?_eq_some found
      rw [← children_of_node? inside] at firstMember
      obtain ⟨liveFirst,firstParent⟩ := (wellFormed.childrenExact parent first liveParent).mp firstMember
      have firstNamed := (name?_eq_some_iff.mp (by simpa using List.find?_some found)).2
      rw [wellFormed.siblingNames first child parent liveFirst liveChild firstParent isParent (firstNamed.trans named.symm)]

theorem WellFormed.mem_children_sprout (wellFormed : t.WellFormed) (live : t.isLive parent) :
    child ∈ (t.sprout parent name).children id ↔
      (t.sprout parent name).isLive child ∧ (t.sprout parent name).parent? child = some id := by
  have absent (other : Handle) : t.size ∉ t.children other := fun member =>
    Nat.lt_irrefl _ (lt_size_of_isLive (wellFormed.mem_children_iff.mp member).1)
  rw [children_sprout (lt_size_of_isLive live),isLive_sprout,parent?_sprout]
  by_cases fresh : child = t.size
  · subst fresh
    by_cases same : id = parent
    · simp [same]
    · simp [same,absent,Ne.symm same]
  · by_cases same : id = parent
    · simp [same,fresh,wellFormed.mem_children_iff]
    · simp [same,fresh,wellFormed.mem_children_iff]

theorem WellFormed.siblingNames_sprout (wellFormed : t.WellFormed) (live : t.isLive parent)
    (unused : t.child? parent name = none) (a b up : Handle) (liveA : (t.sprout parent name).isLive a)
    (liveB : (t.sprout parent name).isLive b) (upA : (t.sprout parent name).parent? a = some up)
    (upB : (t.sprout parent name).parent? b = some up)
    (same : (t.sprout parent name).nameOf a = (t.sprout parent name).nameOf b) : a = b := by
  have unlike (other : Handle) (liveOther : t.isLive other) (isParent : t.parent? other = some parent) :
      t.nameOf other ≠ name := by
    intro named
    have found := wellFormed.child?_eq_some_iff.mpr ⟨live,liveOther,isParent,named⟩
    rw [unused] at found
    cases found
  rw [isLive_sprout,Bool.or_eq_true,beq_iff_eq] at liveA liveB
  rw [parent?_sprout] at upA upB
  rw [nameOf_sprout,nameOf_sprout] at same
  by_cases freshA : a = t.size <;> by_cases freshB : b = t.size
  · rw [freshA,freshB]
  · rw [if_pos freshA] at upA same
    rw [if_neg freshB] at upB same
    cases upA
    exact absurd same.symm (unlike b (liveB.resolve_right freshB) upB)
  · rw [if_neg freshA] at upA same
    rw [if_pos freshB] at upB same
    cases upB
    exact absurd same (unlike a (liveA.resolve_right freshA) upA)
  · rw [if_neg freshA] at upA same
    rw [if_neg freshB] at upB same
    exact wellFormed.siblingNames a b up (liveA.resolve_right freshA) (liveB.resolve_right freshB) upA upB same

theorem WellFormed.sprout (wellFormed : t.WellFormed) (live : t.isLive parent) (proper : ProperName name)
    (unused : t.child? parent name = none) : (t.sprout parent name).WellFormed := by
  have inside := lt_size_of_isLive live
  have alive (id : Handle) : (t.sprout parent name).isLive id ↔ t.isLive id ∨ id = t.size := by simp [isLive_sprout]
  have old (id : Handle) (bound : id < (t.sprout parent name).size) (different : id ≠ t.size) : id < t.size := by
    rw [size_sprout] at bound
    exact Nat.lt_of_le_of_ne (Nat.le_of_lt_succ bound) different
  refine ⟨⟨?rootLive,?rootParent,?parentBelow,?childrenOrdered,?deadEmpty,?properNames,
    wellFormed.siblingNames_sprout live unused⟩,?parentLive,fun _ _ _ => wellFormed.mem_children_sprout live⟩
  case rootLive => exact (alive _).mpr (.inl wellFormed.rootLive)
  case rootParent =>
    rw [parent?_sprout,if_neg (Nat.ne_of_lt (lt_size_of_isLive wellFormed.rootLive))]
    exact wellFormed.rootParent
  case parentBelow =>
    intro id bound inner
    rw [parent?_sprout]
    split
    next fresh => exact ⟨parent,rfl,fresh ▸ inside⟩
    next different => exact wellFormed.parentBelow id (old id bound different) inner
  case childrenOrdered =>
    intro id
    rw [children_sprout inside]
    split
    · refine List.pairwise_append.mpr ⟨wellFormed.childrenOrdered parent,by simp,?_⟩
      intro child member last isLast
      rw [List.mem_singleton.mp isLast]
      exact lt_size_of_isLive (wellFormed.mem_children_iff.mp member).1
    · exact wellFormed.childrenOrdered id
  case deadEmpty =>
    intro id dead
    rw [alive,not_or] at dead
    rw [children_sprout inside,if_neg (by rintro rfl; exact dead.1 live)]
    exact wellFormed.deadEmpty id dead.1
  case properNames =>
    intro id bound
    rw [nameOf_sprout]
    split
    next => exact proper
    next different => exact wellFormed.properNames id (old id bound different)
  case parentLive =>
    intro id up liveId
    rw [parent?_sprout]
    split
    next => intro isParent; rw [← Option.some.inj isParent]; exact (alive _).mpr (.inl live)
    next different =>
      intro isParent
      have liveId := ((alive id).mp liveId).resolve_right different
      exact (alive _).mpr (.inl (wellFormed.parentLive id up liveId isParent))

/-- A modification of liveness, parent and children of no node is held to the names alone. -/
theorem WellFormed.modify (wellFormed : t.WellFormed) {f : Node → Node} (sameLive : ∀ node, (f node).live = node.live)
    (sameParent : ∀ node, (f node).parent = node.parent) (sameChildren : ∀ node, (f node).children = node.children)
    (properNames : ∀ other, other < t.size → ProperName ((t.modify id f).nameOf other))
    (siblingNames : ∀ a b parent, t.isLive a → t.isLive b → t.parent? a = some parent → t.parent? b = some parent →
      (t.modify id f).nameOf a = (t.modify id f).nameOf b → a = b) : (t.modify id f).WellFormed := by
  have alive (other : Handle) : (t.modify id f).isLive other = t.isLive other := isLive_modify sameLive
  have above (other : Handle) : (t.modify id f).parent? other = t.parent? other := parent?_modify sameParent
  have listed (other : Handle) : (t.modify id f).children other = t.children other := children_modify sameChildren
  refine ⟨⟨?_,?_,?_,?_,?_,?_,?_⟩,?_,?_⟩ <;> simp only [alive,above,listed,size_modify]
  · exact wellFormed.rootLive
  · exact wellFormed.rootParent
  · exact wellFormed.parentBelow
  · exact wellFormed.childrenOrdered
  · exact wellFormed.deadEmpty
  · exact properNames
  · exact siblingNames
  · exact wellFormed.parentLive
  · exact wellFormed.childrenExact

theorem WellFormed.rename (wellFormed : t.WellFormed) (live : t.isLive id) (proper : ProperName name)
    (unused : ∀ parent taken, t.parent? id = some parent → t.child? parent name = some taken → taken = id) :
    (t.modify id fun node => { node with name := name }).WellFormed := by
  have called (other : Handle) : (t.modify id fun node => { node with name := name }).nameOf other =
      if other = id then name else t.nameOf other := nameOf_modify_of (fun _ => rfl) (lt_size_of_isLive live)
  have unlike (other parent : Handle) (liveOther : t.isLive other) (isParent : t.parent? id = some parent)
      (isOther : t.parent? other = some parent) (named : t.nameOf other = name) : other = id :=
    unused parent other isParent (wellFormed.child?_eq_some_iff.mpr
      ⟨wellFormed.parentLive id parent live isParent,liveOther,isOther,named⟩)
  refine wellFormed.modify (fun _ => rfl) (fun _ => rfl) (fun _ => rfl) ?_ ?_
  · intro other bound
    rw [called]
    split
    · exact proper
    · exact wellFormed.properNames other bound
  · intro a b parent liveA liveB isA isB
    rw [called,called]
    split <;> split
    next sameA sameB => intros; rw [sameA,sameB]
    next sameA _ => intro named; subst sameA; exact (unlike b parent liveB isA isB named.symm).symm
    next _ sameB => intro named; subst sameB; exact unlike a parent liveA isB isA named
    next => exact wellFormed.siblingNames a b parent liveA liveB isA isB

theorem WellFormed.annotate (wellFormed : t.WellFormed) (key : String) (v : Value) :
    (t.modify id fun node => { node with metadata := node.metadata.insert key v }).WellFormed := by
  have called (other : Handle) : (t.modify id fun node => { node with metadata := node.metadata.insert key v }).nameOf
      other = t.nameOf other := nameOf_modify fun _ => rfl
  refine wellFormed.modify (fun _ => rfl) (fun _ => rfl) (fun _ => rfl) ?_ ?_ <;> simp only [called]
  · exact wellFormed.properNames
  · exact wellFormed.siblingNames

/-! Runs -/

theorem WellFormed.change {after : Tree} (wellFormed : t.WellFormed) (change : Change t after) : after.WellFormed := by
  cases change with
  | none => exact wellFormed
  | sprouted parent name live proper unused => exact wellFormed.sprout live proper unused
  | renamed id name live proper unused => exact wellFormed.rename live proper unused
  | annotated id key v live => exact wellFormed.annotate key v
  | freed id live inner => exact wellFormed.free live inner

theorem wellFormed_run (operations : List Operation) : (new.run operations).WellFormed :=
  run_induction (fun _ _ wellFormed change => wellFormed.change change) operations wellFormed_new

/-- After any operations, refused ones included, the tree is well formed; no link leads out of it. -/
theorem reachable_wellFormed (operations : List Operation) :
    (new.run operations).WellFormed ∧
      ∀ id, ((new.run operations).children id).Nodup ∧
        (∀ parent ∈ (new.run operations).parent? id, parent < (new.run operations).size) ∧
        ∀ child ∈ (new.run operations).children id, child < (new.run operations).size := by
  have wellFormed := wellFormed_run operations
  refine ⟨wellFormed,fun id => ⟨(wellFormed.childrenOrdered id).imp Nat.ne_of_lt,?_,?_⟩⟩
  · intro parent isParent
    exact Nat.lt_trans (wellFormed.parent_lt isParent) (lt_size_of_parent? isParent)
  · intro child member
    by_cases live : (new.run operations).isLive id
    · exact lt_size_of_isLive ((wellFormed.childrenExact id child live).mp member).1
    · rw [wellFormed.deadEmpty id live] at member
      cases member

end TreeConsole.Tree
