import TreeConsole.Proofs.Tree.Subtree
import Mathlib.Data.List.Shortlex

/-! Searching below a node.
A route says at each node, by the place in the list of children, where to go on. The search passes the nodes below its
top in the order of their routes, the shorter ones first and those of one length from left to right, and it stops at
the first node of the name. It passes every node once, so it is over before it runs out of steps.
-/
namespace TreeConsole.Tree
variable {t : Tree} {id top child : Handle} {name : String} {route there : List Nat} {place : Nat}

/-- Is live and properly under another node. -/
structure Below (t : Tree) (id top : Handle) : Prop where
  live : t.isLive id
  under : t.Under id top
  inner : id ≠ top

def descend (t : Tree) (top : Handle) (route : List Nat) : Option Handle :=
  route.foldlM (fun id place => (t.children id)[place]?) top

/-- The first of the nodes below the top that have the name, shorter routes before longer ones and routes of one length
from left to right. -/
structure Nearest (t : Tree) (top : Handle) (name : String) (id : Handle) : Prop where
  below : t.Below id top
  named : t.nameOf id = name
  first : ∃ route, t.descend top route = some id ∧ ∀ there other, t.descend top there = some other → there ≠ [] →
    t.nameOf other = name → there = route ∨ List.Shortlex (· < ·) route there

/-! Routes -/

theorem descend_concat : t.descend top (route ++ [place]) = some child ↔
    ∃ id, t.descend top route = some id ∧ (t.children id)[place]? = some child := by
  simp [descend,List.foldlM_append,Option.bind_eq_some_iff]

theorem WellFormed.of_listed (wellFormed : t.WellFormed) (listed : (t.children id)[place]? = some child) :
    t.isLive child ∧ t.parent? child = some id :=
  wellFormed.mem_children_iff.mp (List.mem_of_getElem? listed)

theorem WellFormed.of_descend (wellFormed : t.WellFormed) (live : t.isLive top)
    (reached : t.descend top route = some id) : t.isLive id ∧ t.Under id top := by
  induction route using List.reverseRecOn generalizing id with
  | nil =>
    cases reached
    exact ⟨live,.refl⟩
  | append_singleton above place ih =>
    obtain ⟨parent,upper,listed⟩ := descend_concat.mp reached
    obtain ⟨alive,isParent⟩ := wellFormed.of_listed listed
    exact ⟨alive,.head isParent (ih upper).2⟩

theorem WellFormed.exists_route (wellFormed : t.WellFormed) (live : t.isLive id) (under : t.Under id top) :
    ∃ route, t.descend top route = some id := by
  induction under using Relation.ReflTransGen.head_induction_on with
  | refl => exact ⟨[],rfl⟩
  | @head id parent isParent _ ih =>
    have alive := wellFormed.parentLive id parent live isParent
    obtain ⟨route,reached⟩ := ih alive
    obtain ⟨place,listed⟩ := List.mem_iff_getElem?.mp (wellFormed.mem_children_iff.mpr ⟨live,isParent⟩)
    exact ⟨route ++ [place],descend_concat.mpr ⟨parent,reached,listed⟩⟩

theorem WellFormed.ne_top_of_descend (wellFormed : t.WellFormed) (live : t.isLive top)
    (reached : t.descend top (route ++ [place]) = some id) : id ≠ top := by
  obtain ⟨parent,upper,listed⟩ := descend_concat.mp reached
  obtain ⟨_,isParent⟩ := wellFormed.of_listed listed
  have above := wellFormed.le_of_under (wellFormed.of_descend live upper).2
  exact Nat.ne_of_gt (Nat.lt_of_le_of_lt above (wellFormed.parent_lt isParent))

theorem WellFormed.below_iff (wellFormed : t.WellFormed) (live : t.isLive top) :
    t.Below id top ↔ ∃ route, route ≠ [] ∧ t.descend top route = some id := by
  constructor
  · rintro ⟨alive,under,inner⟩
    obtain ⟨route,reached⟩ := wellFormed.exists_route alive under
    refine ⟨route,?_,reached⟩
    rintro rfl
    cases reached
    exact inner rfl
  · rintro ⟨route,some,reached⟩
    obtain ⟨alive,under⟩ := wellFormed.of_descend live reached
    obtain ⟨above,place,rfl⟩ := (List.eq_nil_or_concat route).resolve_left some
    exact ⟨alive,under,wellFormed.ne_top_of_descend live (by simpa using reached)⟩

/-- A node has one route at most, for it has one parent and one place in the parent's list. -/
theorem WellFormed.descend_inj (wellFormed : t.WellFormed) (live : t.isLive top) (reached : t.descend top route = some id)
    (also : t.descend top there = some id) : route = there := by
  induction route using List.reverseRecOn generalizing id there with
  | nil =>
    cases reached
    rcases List.eq_nil_or_concat there with rfl | ⟨other,last,rfl⟩
    · rfl
    · exact absurd rfl (wellFormed.ne_top_of_descend live (by simpa using also))
  | append_singleton above place ih =>
    rcases List.eq_nil_or_concat there with rfl | ⟨other,last,rfl⟩
    · cases also
      exact absurd rfl (wellFormed.ne_top_of_descend live reached)
    · rw [List.concat_eq_append] at also ⊢
      obtain ⟨parent,upper,listed⟩ := descend_concat.mp reached
      obtain ⟨parent',upper',listed'⟩ := descend_concat.mp also
      obtain ⟨_,isParent⟩ := wellFormed.of_listed listed
      obtain ⟨_,isParent'⟩ := wellFormed.of_listed listed'
      obtain rfl : parent = parent' := Option.some.inj (isParent.symm.trans isParent')
      have distinct := (wellFormed.childrenOrdered parent).imp Nat.ne_of_lt
      obtain ⟨inside,_⟩ := List.getElem?_eq_some_iff.mp listed
      have same : place = last := (List.getElem?_inj inside distinct).mp (listed.trans listed'.symm)
      rw [ih upper upper',same]

/-! The order of routes -/

theorem shortlex_trans {first second third : List Nat} (before : List.Shortlex (· < ·) first second)
    (after : List.Shortlex (· < ·) second third) : List.Shortlex (· < ·) first third := by
  simp only [List.shortlex_def,List.lex_lt] at before after ⊢
  rcases before with shorter | ⟨even,lower⟩ <;> rcases after with longer | ⟨level,higher⟩
  · exact .inl (Nat.lt_trans shorter longer)
  · exact .inl (level ▸ shorter)
  · exact .inl (even ▸ longer)
  · exact .inr ⟨even.trans level,List.lt_trans lower higher⟩

theorem shortlex_concat {first second : List Nat} {left right : Nat} (before : List.Shortlex (· < ·) first second) :
    List.Shortlex (· < ·) (first ++ [left]) (second ++ [right]) := by
  rcases List.shortlex_def.mp before with shorter | ⟨even,lower⟩
  · exact .of_length_lt (by simpa using shorter)
  · refine .of_lex (by simpa using even) ?_
    induction lower with
    | nil => cases even
    | rel less => exact .rel less
    | cons _ ih => exact .cons (ih (.of_lex (Nat.succ.inj even) ‹_›) (Nat.succ.inj even))

/-! Passing the nodes -/

structure Spot where
  route : List Nat
  id : Handle

def spotsBelow (t : Tree) (spot : Spot) : List Spot :=
  (t.children spot.id).mapIdx fun place child => ⟨spot.route ++ [place],child⟩

/-- How far a search has come: the spots that were passed and those that wait, in the order of their routes. What hangs
below a spot waits or was passed as soon as the spot was passed, and not before. -/
structure Sweep (t : Tree) (top : Handle) (seen queue : List Spot) : Prop where
  placed : ∀ spot ∈ seen ++ queue, t.descend top spot.route = some spot.id
  ordered : (seen ++ queue).Pairwise fun first second => List.Shortlex (· < ·) first.route second.route
  begun : ⟨[],top⟩ ∈ seen ++ queue
  hung : ∀ spot ∈ seen ++ queue, spot.route ≠ [] → ∃ above ∈ seen, ∃ place, spot.route = above.route ++ [place]
  spread : ∀ spot ∈ seen, ∀ lower ∈ t.spotsBelow spot, lower ∈ seen ++ queue

variable {spot lower : Spot} {seen queue : List Spot} {rounds : List (Round Handle)} {answer : Option Handle}

theorem mem_spotsBelow : lower ∈ t.spotsBelow spot ↔
    ∃ place, (t.children spot.id)[place]? = some lower.id ∧ lower.route = spot.route ++ [place] := by
  obtain ⟨route,id⟩ := lower
  simp only [spotsBelow,List.mem_mapIdx,List.getElem?_eq_some_iff,Spot.mk.injEq]
  constructor
  · rintro ⟨place,inside,rfl,rfl⟩
    exact ⟨place,⟨inside,rfl⟩,rfl⟩
  · rintro ⟨place,⟨inside,rfl⟩,rfl⟩
    exact ⟨place,inside,rfl,rfl⟩

theorem route_ne_nil (below : lower ∈ t.spotsBelow spot) : lower.route ≠ [] := by
  obtain ⟨place,_,same⟩ := mem_spotsBelow.mp below
  simp [same]

theorem map_id_spotsBelow (t : Tree) (spot : Spot) : (t.spotsBelow spot).map Spot.id = t.children spot.id := by
  apply List.ext_getElem
  · simp [spotsBelow]
  · simp [spotsBelow]

theorem pairwise_spotsBelow (t : Tree) (spot : Spot) :
    (t.spotsBelow spot).Pairwise fun first second => List.Shortlex (· < ·) first.route second.route := by
  rw [List.pairwise_iff_getElem]
  intro left right _ _ before
  simp only [spotsBelow,List.getElem_mapIdx]
  exact List.Shortlex.append_left ((List.shortlex_singleton_iff left right).mpr before) spot.route

theorem Sweep.start (t : Tree) (top : Handle) : t.Sweep top [] [⟨[],top⟩] := by
  refine ⟨?_,by simp,by simp,?_,by simp⟩
  · intro spot member
    rw [List.nil_append,List.mem_singleton] at member
    rw [member]
    rfl
  · intro spot member inner
    rw [List.nil_append,List.mem_singleton] at member
    rw [member] at inner
    exact absurd rfl inner

/-- The spots below the first that waits have longer routes than all before them, or stand right of them. -/
theorem Sweep.advance (sweep : t.Sweep top seen (spot :: queue)) :
    t.Sweep top (seen ++ [spot]) (queue ++ t.spotsBelow spot) := by
  have whole : seen ++ [spot] ++ (queue ++ t.spotsBelow spot) = seen ++ spot :: queue ++ t.spotsBelow spot := by simp
  have here : spot ∈ seen ++ spot :: queue := by simp
  obtain ⟨_,waiting,across⟩ := List.pairwise_append.mp sweep.ordered
  obtain ⟨ahead,_⟩ := List.pairwise_cons.mp waiting
  refine ⟨?placed,?ordered,?begun,?hung,?spread⟩ <;> rw [whole]
  case placed =>
    intro other member
    rcases List.mem_append.mp member with old | new
    · exact sweep.placed other old
    · obtain ⟨place,listed,same⟩ := mem_spotsBelow.mp new
      rw [same]
      exact descend_concat.mpr ⟨spot.id,sweep.placed spot here,listed⟩
  case ordered =>
    refine List.pairwise_append.mpr ⟨sweep.ordered,t.pairwise_spotsBelow spot,?_⟩
    intro old member new below
    obtain ⟨place,_,same⟩ := mem_spotsBelow.mp below
    have deeper : List.Shortlex (· < ·) spot.route new.route := .of_length_lt (by simp [same])
    rcases List.mem_append.mp member with passed | waits
    · exact shortlex_trans (across old passed spot List.mem_cons_self) deeper
    rcases List.mem_cons.mp waits with rfl | later
    · exact deeper
    -- What waits behind the spot hangs below one that was passed before the spot.
    have behind := ahead old later
    have inner : old.route ≠ [] := by
      intro empty
      rw [empty] at behind
      exact List.not_shortlex_nil_right behind
    obtain ⟨above,passed,side,hangs⟩ := sweep.hung old member inner
    rw [hangs,same]
    exact shortlex_concat (across above passed spot List.mem_cons_self)
  case begun => exact List.mem_append_left _ sweep.begun
  case hung =>
    intro other member inner
    rcases List.mem_append.mp member with old | new
    · obtain ⟨above,passed,hangs⟩ := sweep.hung other old inner
      exact ⟨above,List.mem_append_left _ passed,hangs⟩
    · obtain ⟨place,_,same⟩ := mem_spotsBelow.mp new
      exact ⟨spot,by simp,place,same⟩
  case spread =>
    intro other passed lower below
    rcases List.mem_append.mp passed with old | last
    · exact List.mem_append_left _ (sweep.spread other old lower below)
    · rw [List.mem_singleton] at last
      exact List.mem_append_right _ (last ▸ below)

/-- Whatever lies below the top was passed, or lies below a spot that waits. -/
theorem Sweep.passed_or_waits (sweep : t.Sweep top seen queue) (reached : t.descend top route = some id) :
    ⟨route,id⟩ ∈ seen ∨ ∃ spot ∈ queue, spot.route <+: route := by
  induction route using List.reverseRecOn generalizing id with
  | nil =>
    cases reached
    exact (List.mem_append.mp sweep.begun).imp_right fun waits => ⟨_,waits,List.prefix_refl _⟩
  | append_singleton above place ih =>
    obtain ⟨parent,upper,listed⟩ := descend_concat.mp reached
    rcases ih upper with passed | ⟨spot,waits,begins⟩
    · have below : (⟨above ++ [place],id⟩ : Spot) ∈ t.spotsBelow ⟨above,parent⟩ := mem_spotsBelow.mpr ⟨place,listed,rfl⟩
      exact (List.mem_append.mp (sweep.spread _ passed _ below)).imp_right fun waits => ⟨_,waits,List.prefix_refl _⟩
    · exact .inr ⟨spot,waits,begins.trans (List.prefix_append above [place])⟩

theorem Sweep.isLive_first (sweep : t.Sweep top seen (spot :: queue)) (wellFormed : t.WellFormed) (live : t.isLive top) :
    t.isLive spot.id :=
  (wellFormed.of_descend live (sweep.placed spot (by simp))).1

/-- No node is passed twice. -/
theorem Sweep.distinct (sweep : t.Sweep top seen queue) (wellFormed : t.WellFormed) (live : t.isLive top) :
    t.Distinct ((seen ++ queue).map Spot.id) where
  once := by
    rw [List.Nodup,List.pairwise_map]
    refine sweep.ordered.imp_of_mem fun {first second} here there before same => ?_
    have reached := sweep.placed first here
    rw [same] at reached
    have level := wellFormed.descend_inj live reached (sweep.placed second there)
    rw [level] at before
    exact (List.Shortlex.asymm.asymm _ _ before) before
  nodes := by
    intro id member
    obtain ⟨spot,among,rfl⟩ := List.mem_map.mp member
    exact lt_size_of_isLive (wellFormed.of_descend live (sweep.placed spot among)).1

/-! Searching -/

/-- Ends with nothing at a dead node and with the node at one of the name; goes on with the children of any other. -/
def searchRound (t : Tree) (name : String) (_ : Option Handle) (id : Handle) : Option Handle × Option (List Handle) :=
  match t.liveNode? id with
  | none => (none,none)
  | some node => if node.name = name then (some id,none) else (none,some node.children)

theorem search_eq_cutOff (steps : Nat) (queue : List Handle) :
    t.search name steps queue = cutOff (t.searchRound name) steps none queue := by
  induction steps generalizing queue with
  | zero => rfl
  | succ steps ih =>
    cases queue with
    | nil => rfl
    | cons id queue =>
      cases here : t.liveNode? id with
      | none => simp [search,cutOff,searchRound,here]
      | some node => by_cases named : node.name = name <;> simp [search,cutOff,searchRound,here,named,ih]

theorem searchRound_eq (live : t.isLive id) (cursor : Option Handle) : t.searchRound name cursor id =
    if t.nameOf id = name then (some id,none) else (none,some (t.children id)) := by
  obtain ⟨node,inside,alive⟩ := isLive_iff.mp live
  rw [searchRound,liveNode?_eq_some_iff.mpr ⟨inside,alive⟩,nameOf_of_node? inside,children_of_node? inside]

/-- What a search below a top comes to: the nearest node of the name, or nothing where there is none. -/
inductive Found (t : Tree) (top : Handle) (name : String) : Option Handle → Prop
  | nowhere (absent : ∀ id, t.Below id top → t.nameOf id ≠ name) : Found t top name none
  | nearest {found} (nearest : t.Nearest top name found) : Found t top name (some found)

theorem Sweep.nearest (sweep : t.Sweep top seen (spot :: queue)) (wellFormed : t.WellFormed) (live : t.isLive top)
    (inner : spot.route ≠ []) (named : t.nameOf spot.id = name)
    (unnamed : ∀ other ∈ seen, other.route ≠ [] → t.nameOf other.id ≠ name) : t.Nearest top name spot.id := by
  have reached := sweep.placed spot (by simp)
  refine ⟨(wellFormed.below_iff live).mpr ⟨spot.route,inner,reached⟩,named,spot.route,reached,?_⟩
  intro there other also deeper alike
  rcases sweep.passed_or_waits also with passed | ⟨waits,member,begins⟩
  · exact absurd alike (unnamed _ passed deeper)
  obtain ⟨ahead,_⟩ := List.pairwise_cons.mp (List.pairwise_append.mp sweep.ordered).2.1
  obtain ⟨more,rfl⟩ := begins
  -- A route that goes on from a waiting one is not before it.
  rcases List.mem_cons.mp member with rfl | later
  · cases more with
    | nil => exact .inl (List.append_nil _)
    | cons => exact .inr (.of_length_lt (by simp))
  · exact .inr (List.Shortlex.append_right more (ahead waits later))

theorem Sweep.nowhere (sweep : t.Sweep top seen []) (wellFormed : t.WellFormed) (live : t.isLive top)
    (unnamed : ∀ spot ∈ seen, spot.route ≠ [] → t.nameOf spot.id ≠ name) : t.Found top name none := by
  refine .nowhere fun id below => ?_
  obtain ⟨route,inner,reached⟩ := (wellFormed.below_iff live).mp below
  rcases sweep.passed_or_waits reached with passed | ⟨_,waits,_⟩
  · exact unnamed _ passed inner
  · cases waits

/-- A sweep that has not met the name before it goes on in rounds comes to what it is looking for. -/
theorem Sweep.found (sweep : t.Sweep top seen queue) (wellFormed : t.WellFormed) (live : t.isLive top)
    (begun : ∀ spot ∈ queue, spot.route ≠ []) (unnamed : ∀ spot ∈ seen, spot.route ≠ [] → t.nameOf spot.id ≠ name)
    (run : Rounds (t.searchRound name) none (queue.map Spot.id) rounds answer) : t.Found top name answer := by
  generalize start : none = cursor at run
  generalize waits : queue.map Spot.id = ids at run
  induction run generalizing seen queue with
  | emptied =>
    obtain rfl := List.map_eq_nil_iff.mp waits
    exact start ▸ sweep.nowhere wellFormed live unnamed
  | ended ends =>
    obtain ⟨spot,queue,rfl,rfl,rfl⟩ := List.map_eq_cons_iff.mp waits
    rw [searchRound_eq (sweep.isLive_first wellFormed live)] at ends
    split at ends <;> cases ends
    next named => exact .nearest (sweep.nearest wellFormed live (begun spot List.mem_cons_self) named unnamed)
  | continued goesOn _ ih =>
    obtain ⟨spot,queue,rfl,rfl,rfl⟩ := List.map_eq_cons_iff.mp waits
    rw [searchRound_eq (sweep.isLive_first wellFormed live)] at goesOn
    split at goesOn <;> cases goesOn
    next other =>
      refine ih sweep.advance ?_ ?_ rfl (by rw [List.map_append,map_id_spotsBelow])
      · intro later member
        rcases List.mem_append.mp member with old | below
        · exact begun later (List.mem_cons_of_mem spot old)
        · exact route_ne_nil below
      · intro passed member deeper
        rcases List.mem_append.mp member with old | last
        · exact unnamed passed old deeper
        · rwa [List.mem_singleton.mp last]

theorem search_nil (steps : Nat) : t.search name steps [] = none := by cases steps <;> rfl

/-- Under a dead node there is nothing to search. -/
theorem WellFormed.find_eq_search (wellFormed : t.WellFormed) (top : Handle) (name : String) :
    t.find top name = t.search name t.size (t.children top) := by
  cases here : t.liveNode? top with
  | none =>
    have dead : ¬ t.isLive top := by rw [isLive,here]; exact Bool.false_ne_true
    rw [find,here,wellFormed.deadEmpty top dead,search_nil,Option.bind_none]
  | some node => rw [find,here,Option.bind_some,children_of_node? (liveNode?_eq_some_iff.mp here).1]

/-- Below a live node a search sweeps, with the top passed already; below a dead one it has nothing to take. -/
theorem WellFormed.search_ends (wellFormed : t.WellFormed) (top : Handle) (name : String) : ∃ rounds found,
    Rounds (t.searchRound name) none (t.children top) rounds found ∧
      t.Distinct (t.children top ++ rounds.flatMap Round.added) := by
  by_cases live : t.isLive top
  · refine exists_rounds (motive := fun seen _ queue => ∃ passed waits, t.Sweep top passed waits ∧
      passed.map Spot.id = top :: seen ∧ waits.map Spot.id = queue) ?_ ?_ Distinct.length_le
      ⟨_,_,(Sweep.start t top).advance,rfl,map_id_spotsBelow t _⟩
    · rintro seen _ first queue _ more ⟨passed,waits,sweep,same,queued⟩ goesOn
      obtain ⟨spot,waits,rfl,rfl,rfl⟩ := List.map_eq_cons_iff.mp queued
      rw [searchRound_eq (sweep.isLive_first wellFormed live)] at goesOn
      split at goesOn <;> cases goesOn
      exact ⟨_,_,sweep.advance,by simp [same],by rw [List.map_append,map_id_spotsBelow]⟩
    · rintro seen _ queue ⟨passed,waits,sweep,same,rfl⟩
      have distinct := sweep.distinct wellFormed live
      rw [List.map_append,same] at distinct
      exact ⟨distinct.once.of_cons,fun id member => distinct.nodes id (List.mem_cons_of_mem top member)⟩
  · rw [wellFormed.deadEmpty top live]
    exact ⟨[],none,.emptied,by simp,by simp⟩

theorem WellFormed.find_found (wellFormed : t.WellFormed) (live : t.isLive top) (name : String) :
    t.Found top name (t.find top name) := by
  obtain ⟨rounds,found,run,distinct⟩ := wellFormed.search_ends top name
  rw [wellFormed.find_eq_search,search_eq_cutOff,run.cutOff_eq (distinct.rounds_le run)]
  rw [← map_id_spotsBelow t ⟨[],top⟩] at run
  refine (Sweep.start t top).advance.found wellFormed live (fun _ below => route_ne_nil below) ?_ run
  intro spot member inner
  rw [List.nil_append,List.mem_singleton] at member
  rw [member] at inner
  exact absurd rfl inner

theorem invoke_find (live : t.isLive top) (name : String) :
    t.invoke top "find" [.string name] = (t,.ok (handleOrNull (t.find top name))) := by
  obtain ⟨node,inside,alive⟩ := isLive_iff.mp live
  have called : Update.call top "find" [.string name] t = .ok (handleOrNull (t.find top name)) t :=
    Update.call_eq (liveNode?_eq_some_iff.mpr ⟨inside,alive⟩) (Method.ofName?_name .find) [.string name]
  exact Update.outcome_eq_ok_iff.mpr called

/-- In every reachable tree the search below a live node answers null exactly when no live node properly under it has the
name, and else the first of them by depth and then from left to right. It changes nothing, and the nodes that it chooses
from are those that a route leads to. -/
theorem find_nearest (operations : List Operation) (top : Handle) (name : String)
    (live : (new.run operations).isLive top) :
    (∀ id, (new.run operations).Below id top ↔ ∃ route, route ≠ [] ∧ (new.run operations).descend top route = some id) ∧
    ((new.run operations).invoke top "find" [.string name] = (new.run operations,.ok .null) ↔
      ∀ id, (new.run operations).Below id top → (new.run operations).nameOf id ≠ name) ∧
    ((∃ id, (new.run operations).Below id top ∧ (new.run operations).nameOf id = name) →
      ∃ id, (new.run operations).invoke top "find" [.string name] = (new.run operations,.ok (.object id)) ∧
        (new.run operations).Nearest top name id) := by
  have wellFormed := wellFormed_run operations
  have found := wellFormed.find_found live name
  refine ⟨fun id => wellFormed.below_iff live,?_,?_⟩ <;> rw [invoke_find live]
  · generalize (new.run operations).find top name = answer at found
    cases found with
    | nowhere absent => exact iff_of_true rfl absent
    | nearest nearest =>
      exact iff_of_false (fun same => nomatch same) fun absent => absent _ nearest.below nearest.named
  · rintro ⟨id,below,named⟩
    generalize (new.run operations).find top name = answer at found
    cases found with
    | nowhere absent => exact absurd named (absent id below)
    | nearest nearest => exact ⟨_,rfl,nearest⟩

/-- Below the root, the name `x` was freed at depth one, is at depth two on the left and on the right, and is at depth
three left of both. -/
def shaded : List Operation :=
  [.addChild root "a",.addChild root "x",.addChild 1 "b",.addChild 3 "x",.addChild 1 "x",.addChild root "c",
    .addChild 6 "x",.free 2]

theorem find_nearest_shaded :
    (new.run shaded).invoke root "find" [.string "x"] = (new.run shaded,.ok (.object 5)) ∧
    (new.run shaded).Nearest root "x" 5 ∧
    (new.run shaded).invoke 7 "find" [.string "x"] = (new.run shaded,.ok .null) := by
  have live : (new.run shaded).isLive root := by decide +kernel
  have leaf : (new.run shaded).isLive 7 := by decide +kernel
  have found : (new.run shaded).find root "x" = some 5 := by decide +kernel
  have childless : (new.run shaded).children 7 = [] := by decide +kernel
  obtain ⟨_,_,chosen⟩ := find_nearest shaded root "x" live
  obtain ⟨placed,nowhere,_⟩ := find_nearest shaded 7 "x" leaf
  have called := invoke_find live "x"
  rw [found] at called
  have below : (new.run shaded).Below 5 root :=
    ((find_nearest shaded root "x" live).1 5).mpr ⟨[0,1],by simp,by decide +kernel⟩
  obtain ⟨id,answered,nearest⟩ := chosen ⟨5,below,by decide +kernel⟩
  have same : (.ok (.object 5) : Except HostError Value) = .ok (.object id) :=
    congrArg Prod.snd (called.symm.trans answered)
  cases same
  refine ⟨answered,nearest,nowhere.mpr fun id below => ?_⟩
  obtain ⟨route,inner,reached⟩ := (placed id).mp below
  obtain ⟨place,route,rfl⟩ := List.exists_cons_of_ne_nil inner
  simp [descend,childless] at reached

end TreeConsole.Tree
