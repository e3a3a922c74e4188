import TreeConsole.Proofs.Tree.Search

/-! Walks in rounds.
Climbing to the root, searching below a node and freeing a subtree are loops over a queue of nodes, and none of them
notes which nodes it has met. In a reachable tree they end all the same, within as many rounds as there are nodes: a climb
takes smaller and smaller handles, and the other two never queue a node twice. So the walks that count their steps have
always come to their end.
-/
namespace TreeConsole.Tree
variable {t : Tree} {id parent : Handle} {names climbed : List String} {seen ids more : List Handle}

/-- Notes the name of a node and goes on with its parent; ends where there is no node. -/
def climbRound (t : Tree) (names : List String) (id : Handle) : List String × Option (List Handle) :=
  match t.node? id with
  | none => (names,none)
  | some node => (names ++ [node.name],some node.parent.toList)

theorem cutOff_climbRound (steps : Nat) (names : List String) (cursor : Option Handle) :
    cutOff t.climbRound steps names cursor.toList = names ++ ((cursor.map (t.climb steps)).getD []).map t.nameOf := by
  induction steps generalizing names cursor with
  | zero => cases cursor <;> simp [cutOff,climb]
  | succ steps ih =>
    cases cursor with
    | none => simp [cutOff]
    | some id =>
      cases inside : t.node? id with
      | none => simp [cutOff,climbRound,climb,inside]
      | some node => simp [cutOff,climbRound,climb,inside,ih,nameOf_of_node? inside]

theorem path_eq_cutOff (t : Tree) (id : Handle) :
    t.path id = "/" ++ "/".intercalate (cutOff t.climbRound t.size [] [id]).reverse := by
  have climbed : cutOff t.climbRound t.size [] [id] = (t.lineage id).map t.nameOf :=
    cutOff_climbRound t.size [] (some id)
  rw [path,climbed,List.map_reverse]

/-- Nodes of a tree with smaller and smaller handles. -/
structure Falling (t : Tree) (ids : List Handle) : Prop where
  falls : ids.Pairwise (· > ·)
  nodes : ∀ id ∈ ids, id < t.size

theorem Falling.distinct (falling : t.Falling ids) : t.Distinct ids where
  once := falling.falls.imp Nat.ne_of_gt
  nodes := falling.nodes

theorem Layout.falling_concat (layout : t.Layout) (falling : t.Falling (seen ++ [id]))
    (isParent : t.parent? id = some parent) : t.Falling (seen ++ [id] ++ [parent]) := by
  have below := layout.parent_lt isParent
  refine ⟨List.pairwise_append.mpr ⟨falling.falls,by simp,?_⟩,?_⟩
  · intro higher member last isLast
    rw [List.mem_singleton.mp isLast]
    rcases List.mem_append.mp member with old | same
    · have above := (List.pairwise_append.mp falling.falls).2.2 higher old id List.mem_cons_self
      exact Nat.lt_trans below above
    · exact (List.mem_singleton.mp same).symm ▸ below
  · intro other member
    rcases List.mem_append.mp member with old | last
    · exact falling.nodes other old
    · rw [List.mem_singleton.mp last]
      exact Nat.lt_trans below (lt_size_of_parent? isParent)

theorem Layout.falling_climbRound (layout : t.Layout) (falling : t.Falling (seen ++ [id]))
    (goesOn : t.climbRound names id = (climbed,some more)) : t.Falling (seen ++ [id] ++ more) ∧ more.length ≤ 1 := by
  unfold climbRound at goesOn
  split at goesOn <;> cases goesOn
  next node found =>
    cases isParent : node.parent with
    | none => simpa using falling
    | some parent => exact ⟨layout.falling_concat falling ((parent?_of_node? found).trans isParent),Nat.le_refl 1⟩

/-- A climb goes from parent to parent and ends above the root, or at once where there is no node. -/
theorem Layout.climb_ends (layout : t.Layout) (id : Handle) : ∃ rounds names,
    Rounds t.climbRound [] [id] rounds names ∧ (rounds.map Round.taken).Pairwise (· > ·) ∧ rounds.length ≤ t.size := by
  by_cases inside : id < t.size
  · obtain ⟨rounds,names,run,falling⟩ : ∃ rounds names, Rounds t.climbRound [] [id] rounds names ∧
        t.Falling ([id] ++ rounds.flatMap Round.added) := by
      have start : t.Falling ([] ++ [id]) := ⟨by simp,by simpa using inside⟩
      refine exists_rounds (motive := fun seen _ queue => t.Falling (seen ++ queue) ∧ queue.length ≤ 1) ?_ And.left
        (fun falling => falling.distinct.length_le) ⟨start,Nat.le_refl 1⟩
      rintro seen names first queue climbed more ⟨falling,alone⟩ goesOn
      obtain rfl : queue = [] := List.length_eq_zero_iff.mp (Nat.le_zero.mp (Nat.le_of_succ_le_succ alone))
      exact layout.falling_climbRound falling goesOn
    exact ⟨rounds,names,run,falling.falls.sublist run.taken_prefix.sublist,falling.distinct.rounds_le run⟩
  · have nowhere : t.climbRound [] id = ([],none) := by rw [climbRound,node?_eq_none (Nat.le_of_not_lt inside)]
    exact ⟨_,_,.ended nowhere,by simp,Nat.zero_lt_of_lt (lt_size_of_isLive layout.rootLive)⟩

/-- In every reachable tree the climb from any handle, of a node or not, takes smaller and smaller handles, and what it
notes on the way spells the path. The search below a node and the freeing of one queue nodes of the tree only, each at
most once, and come to the node that is found and to the tree that is left. None of the three makes more rounds than
there are nodes. -/
theorem walks_end (operations : List Operation) :
    (∀ id, ∃ rounds names, Rounds (new.run operations).climbRound [] [id] rounds names ∧
      (new.run operations).path id = "/" ++ "/".intercalate names.reverse ∧
      (rounds.map Round.taken).Pairwise (· > ·) ∧ rounds.length ≤ (new.run operations).size) ∧
    (∀ top name, ∃ rounds, Rounds ((new.run operations).searchRound name) none ((new.run operations).children top)
        rounds ((new.run operations).find top name) ∧
      (new.run operations).Distinct ((new.run operations).children top ++ rounds.flatMap Round.added) ∧
      rounds.length ≤ (new.run operations).size) ∧
    ∀ id, (new.run operations).isLive id → id ≠ root → ∃ rounds after, (new.run operations).free id = .ok after ∧
      Rounds closeRound ((new.run operations).detach id) [id] rounds after ∧
      (new.run operations).Distinct ([id] ++ rounds.flatMap Round.added) ∧
      rounds.length ≤ (new.run operations).size := by
  have wellFormed := wellFormed_run operations
  refine ⟨?_,?_,?_⟩
  · intro id
    obtain ⟨rounds,names,run,falls,few⟩ := wellFormed.climb_ends id
    exact ⟨rounds,names,run,by rw [path_eq_cutOff,run.cutOff_eq few],falls,few⟩
  · intro top name
    obtain ⟨rounds,found,run,distinct⟩ := wellFormed.search_ends top name
    have few := distinct.rounds_le run
    rw [wellFormed.find_eq_search,search_eq_cutOff,run.cutOff_eq few]
    exact ⟨rounds,run,distinct,few⟩
  · intro id live inner
    obtain ⟨rounds,after,run,distinct⟩ := wellFormed.free_ends live inner
    have few := distinct.rounds_le run
    have freed : after = ((new.run operations).detach id).release (new.run operations).size [id] := by
      rw [release_eq_cutOff,run.cutOff_eq few]
    exact ⟨rounds,after,free_eq_ok_iff.mpr ⟨live,inner,freed⟩,run,distinct,few⟩

/-- A dead node is climbed from, over the links that it has kept, but it is not queued by the freeing above it. -/
theorem walks_end_branching :
    (∃ rounds names, Rounds (new.run branching).climbRound [] [6] rounds names ∧
      rounds = [⟨6,[3]⟩,⟨3,[2]⟩,⟨2,[0]⟩,⟨0,[]⟩] ∧ (rounds.map Round.taken).Pairwise (· > ·)) ∧
    (new.run branching).isLive 2 ∧ 2 ≠ root ∧ ∃ rounds after, (new.run branching).free 2 = .ok after ∧
      Rounds closeRound ((new.run branching).detach 2) [2] rounds after ∧ rounds = [⟨2,[3]⟩,⟨3,[5]⟩,⟨5,[]⟩] ∧
      (new.run branching).Distinct ([2] ++ rounds.flatMap Round.added) := by
  have live : (new.run branching).isLive 2 := by decide
  have inner : 2 ≠ root := by decide
  obtain ⟨climb,_,free⟩ := walks_end branching
  obtain ⟨rounds,names,climbs,_,falls,_⟩ := climb 6
  obtain ⟨others,after,freed,closes,distinct,_⟩ := free 2 live inner
  refine ⟨⟨rounds,names,climbs,?_,falls⟩,live,inner,others,after,freed,closes,?_,distinct⟩
  · exact (climbs.unique (.continued rfl (.continued rfl (.continued rfl (.continued rfl .emptied))))).1
  · exact (closes.unique (.continued rfl (.continued rfl (.continued rfl .emptied)))).1

end TreeConsole.Tree
