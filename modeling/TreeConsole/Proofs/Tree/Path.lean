import TreeConsole.Proofs.Text.Pieces
import TreeConsole.Proofs.Tree.WellFormed

/-! Paths and the nodes they lead to.
The path of a node spells the names from the root down to it. Followed from the root it leads back to the node,
except that a path gives up the blank characters at its end.
-/
namespace TreeConsole.Tree
open Text
variable {t : Tree} {id parent start : Handle} {path : String}

/-! Climbing -/

/-- As parents have smaller handles, any number of steps above the handle climbs to the root. -/
theorem Layout.climb_eq (layout : t.Layout) {few many : Nat} (enough : id < few) (plenty : id < many) :
    t.climb few id = t.climb many id := by
  induction few generalizing id many with
  | zero => cases enough
  | succ few ih =>
    cases many with
    | zero => cases plenty
    | succ many =>
      unfold climb
      cases found : t.node? id with
      | none => rfl
      | some node =>
        cases isParent : node.parent with
        | none => simp [isParent]
        | some parent =>
          have below := layout.parent_lt ((parent?_of_node? found).trans isParent)
          have same : t.climb few parent = t.climb many parent :=
            ih (Nat.lt_of_lt_of_le below (Nat.le_of_lt_succ enough)) (Nat.lt_of_lt_of_le below (Nat.le_of_lt_succ plenty))
          simp [isParent,same]

theorem climb_succ (steps : Nat) (inside : id < t.size) :
    t.climb (steps + 1) id = id :: ((t.parent? id).map (t.climb steps)).getD [] := by
  obtain ⟨node,found⟩ := exists_node? inside
  rw [parent?_of_node? found,climb,found]

theorem Layout.lineage_root (layout : t.Layout) : t.lineage root = [root] := by
  have inside := lt_size_of_isLive layout.rootLive
  obtain ⟨steps,enough⟩ := Nat.exists_eq_add_one_of_ne_zero (Nat.ne_of_gt inside)
  rw [lineage,enough,climb_succ steps inside,layout.rootParent]
  rfl

theorem Layout.lineage_child (layout : t.Layout) (isParent : t.parent? id = some parent) :
    t.lineage id = id :: t.lineage parent := by
  have inside := lt_size_of_parent? isParent
  have below := layout.parent_lt isParent
  obtain ⟨steps,enough⟩ := Nat.exists_eq_add_one_of_ne_zero (Nat.ne_of_gt (Nat.zero_lt_of_lt inside))
  have bound : id ≤ steps := Nat.le_of_lt_succ (Nat.lt_of_lt_of_le inside (Nat.le_of_eq enough))
  have same : t.climb steps parent = t.climb t.size parent :=
    layout.climb_eq (Nat.lt_of_lt_of_le below bound) (Nat.lt_trans below inside)
  rw [lineage,lineage,← same]
  conv_lhs => rw [enough]
  rw [climb_succ steps inside,isParent]
  rfl

/-- What holds of the root and passes from parents to children holds of every node. -/
theorem Layout.induction (layout : t.Layout) {motive : Handle → Prop} (base : motive root)
    (step : ∀ id parent, t.parent? id = some parent → motive parent → motive id) (inside : id < t.size) : motive id := by
  induction id using Nat.strong_induction_on with
  | h id ih =>
    by_cases top : id = root
    · exact top ▸ base
    · obtain ⟨parent,isParent,below⟩ := layout.parentBelow id inside top
      exact step id parent isParent (ih parent below (Nat.lt_trans below inside))

def components (t : Tree) (id : Handle) : List String := (t.lineage id).reverse.map t.nameOf

theorem Layout.components_root (layout : t.Layout) : t.components root = [t.nameOf root] := by
  rw [components,layout.lineage_root]
  rfl

theorem Layout.components_child (layout : t.Layout) (isParent : t.parent? id = some parent) :
    t.components id = t.components parent ++ [t.nameOf id] := by
  simp [components,layout.lineage_child isParent]

theorem Layout.components_eq (layout : t.Layout) (inside : id < t.size) :
    ∃ below, t.components id = t.nameOf root :: below := by
  refine layout.induction (motive := fun id => ∃ below, t.components id = t.nameOf root :: below) ?_ ?_ inside
  · exact ⟨[],layout.components_root⟩
  · rintro id parent isParent ⟨below,same⟩
    exact ⟨below ++ [t.nameOf id],by rw [layout.components_child isParent,same]; rfl⟩

theorem Layout.components_concat (layout : t.Layout) (inside : id < t.size) :
    ∃ above, t.components id = above ++ [t.nameOf id] := by
  by_cases top : id = root
  · subst top
    exact ⟨[],layout.components_root⟩
  · obtain ⟨parent,isParent,_⟩ := layout.parentBelow id inside top
    exact ⟨t.components parent,layout.components_child isParent⟩

theorem Layout.properName_of_mem_components (layout : t.Layout) (inside : id < t.size) {name : String}
    (member : name ∈ t.components id) : ProperName name := by
  refine layout.induction (motive := fun id => ∀ name ∈ t.components id, ProperName name) ?_ ?_ inside name member
  · intro name member
    rw [layout.components_root,List.mem_singleton] at member
    exact member ▸ layout.properNames root (lt_size_of_isLive layout.rootLive)
  · intro id parent isParent ih name member
    rw [layout.components_child isParent,List.mem_append,List.mem_singleton] at member
    rcases member with above | rfl
    · exact ih name above
    · exact layout.properNames id (lt_size_of_parent? isParent)

/-! Following -/

theorem step_name {name : String} (proper : ProperName name) : t.step id name = t.child? id name := by
  unfold step
  split
  · exact absurd rfl proper.notDot
  · exact absurd rfl proper.notDots
  · rfl

/-- The names below the root lead from the root to a live node. -/
theorem WellFormed.foldlM_step (wellFormed : t.WellFormed) (live : t.isLive id) :
    (t.components id).tail.foldlM t.step root = some id := by
  refine wellFormed.induction (motive := fun id => t.isLive id →
    (t.components id).tail.foldlM t.step root = some id) ?_ ?_ (lt_size_of_isLive live) live
  · intro _
    rw [wellFormed.components_root]
    rfl
  · intro id parent isParent ih live
    have liveParent := wellFormed.parentLive id parent live isParent
    obtain ⟨below,same⟩ := wellFormed.components_eq (lt_size_of_isLive liveParent)
    have walked := ih liveParent
    have found := wellFormed.child?_eq_some_iff.mpr ⟨liveParent,live,isParent,rfl⟩
    rw [same] at walked
    rw [wellFormed.components_child isParent,same]
    simp only [List.cons_append,List.tail_cons,List.foldlM_append,List.foldlM_cons,List.foldlM_nil] at walked ⊢
    rw [walked,Option.bind_eq_bind,Option.bind_some,step_name (wellFormed.properNames id (lt_size_of_isLive live)),found]
    rfl

theorem follow_eq {first : List Char} {more : List (List Char)} (live : t.isLive id)
    (free : ∀ part ∈ first :: more, '/' ∉ part) : t.follow id (first ++ more.flatMap ('/' :: ·)) =
      (((first :: more).filter (!·.isEmpty)).map String.ofList).foldlM t.step id := by
  rw [follow,if_pos live,pieces_flatMap free]

/-- A path from the top is followed from the root when its first part is the root's name. -/
theorem resolve_absolute {top : List Char} {more : List (List Char)}
    (spelled : trim path.toList = (top :: more).flatMap ('/' :: ·)) (free : ∀ part ∈ top :: more, '/' ∉ part) :
    t.resolve start path = if t.name? root = some (String.ofList top) then
      ((more.filter (!·.isEmpty)).map String.ofList).foldlM t.step root else none := by
  have topFree := free top (by simp)
  simp only [resolve,spelled,List.flatMap_cons,List.cons_append]
  cases more with
  | nil =>
    rw [List.flatMap_nil,List.append_nil,cut_eq_none topFree]
    simp only [Option.getD_none]
    split
    next named =>
      have live : t.isLive root := (name?_eq_some_iff.mp named).1
      simpa using @follow_eq t root [] [] live (by simp)
    next => rfl
  | cons first rest =>
    rw [List.flatMap_cons,List.cons_append,cut_append topFree]
    simp only [Option.getD_some]
    split
    next named => exact follow_eq (name?_eq_some_iff.mp named).1 fun part member => free part (by simp_all)
    next => rfl

theorem toList_path (some : t.components id ≠ []) :
    (t.path id).toList = ((t.components id).map String.toList).flatMap ('/' :: ·) := by
  have slash : "/".toList = ['/'] := rfl
  have spelled : t.path id = "/" ++ "/".intercalate (t.components id) := rfl
  rw [spelled,String.toList_append,String.toList_intercalate,slash,List.singleton_append,cons_intercalate (by simpa using some)]

/-- Trimming a path takes the blank characters off the end of its last name. -/
theorem trim_path {above : List String} (same : t.components id = above ++ [t.nameOf id]) :
    trim (t.path id).toList = (above.map String.toList ++ [trimEnd (t.nameOf id).toList]).flatMap ('/' :: ·) := by
  have spelled : (t.path id).toList = ((t.components id).map String.toList).flatMap ('/' :: ·) :=
    toList_path (by simp [same])
  have head : ∃ rest, (t.path id).toList = '/' :: rest := by
    rw [spelled,same]
    cases above <;> exact ⟨_,rfl⟩
  obtain ⟨rest,starts⟩ := head
  rw [trim,starts,trimStart_of_head (by decide),← starts,spelled,same]
  simp only [List.map_append,List.map_cons,List.map_nil,List.flatMap_append,List.flatMap_cons,List.flatMap_nil,
    List.append_nil]
  exact trimEnd_append_cons (by decide)

theorem Layout.trimmed_path (layout : t.Layout) (inside : id < t.size)
    (solid : trimEnd (t.nameOf id).toList = (t.nameOf id).toList) : trimmed (t.path id) = t.path id := by
  obtain ⟨above,same⟩ := layout.components_concat inside
  have spelled : trim (t.path id).toList = (t.path id).toList := by
    rw [trim_path same,solid,toList_path (by simp [same]),same,List.map_append]
    rfl
  rw [trimmed,spelled,String.ofList_toList]

theorem Layout.mem_path {c : Char} (layout : t.Layout) (inside : id < t.size) (member : c ∈ (t.nameOf id).toList) :
    c ∈ (t.path id).toList := by
  obtain ⟨above,same⟩ := layout.components_concat inside
  rw [toList_path (by simp [same]),same]
  simp [member]

theorem Layout.component_free (layout : t.Layout) (inside : id < t.size) {part : List Char}
    (member : part ∈ (t.components id).map String.toList) : '/' ∉ part ∧ part ≠ [] := by
  obtain ⟨name,isName,rfl⟩ := List.mem_map.mp member
  have proper := layout.properName_of_mem_components inside isName
  exact ⟨proper.noSlash,by simpa using proper.nonempty⟩

theorem Layout.trimmed_free (layout : t.Layout) (inside : id < t.size) : '/' ∉ trimEnd (t.nameOf id).toList := by
  intro member
  have kept : trimEnd (t.nameOf id).toList <+: (t.nameOf id).toList := trimEnd_eq_prefix _
  exact (layout.properNames id inside).noSlash (kept.subset member)

theorem Layout.components_inj {a b : Handle} (layout : t.Layout) (insideA : a < t.size) (insideB : b < t.size)
    (same : t.path a = t.path b) : t.components a = t.components b := by
  obtain ⟨belowA,namesA⟩ := layout.components_eq insideA
  obtain ⟨belowB,namesB⟩ := layout.components_eq insideB
  have freeA (part) (member : part ∈ (t.components a).map String.toList) := (layout.component_free insideA member).1
  have freeB (part) (member : part ∈ (t.components b).map String.toList) := (layout.component_free insideB member).1
  have spelled : (t.path a).toList = (t.path b).toList := by rw [same]
  rw [toList_path (by simp [namesA]),toList_path (by simp [namesB])] at spelled
  rw [namesA,List.map_cons] at freeA
  rw [namesB,List.map_cons] at freeB
  simp only [namesA,namesB,List.map_cons,List.flatMap_cons,List.cons_append,List.cons.injEq,true_and] at spelled
  have pieced := congrArg (pieces (· == '/')) spelled
  rw [pieces_flatMap freeA,pieces_flatMap freeB] at pieced
  rw [namesA,namesB]
  exact List.map_injective_iff.mpr (fun _ _ => String.toList_inj.mp) (by simpa using pieced)

theorem WellFormed.path_inj {a b : Handle} (wellFormed : t.WellFormed) (liveA : t.isLive a) (liveB : t.isLive b)
    (same : t.path a = t.path b) : a = b := by
  have equal := wellFormed.components_inj (lt_size_of_isLive liveA) (lt_size_of_isLive liveB) same
  have walkedA := wellFormed.foldlM_step liveA
  have walkedB := wellFormed.foldlM_step liveB
  rw [equal,walkedB] at walkedA
  exact (Option.some.inj walkedA).symm

/-- From a node's parent, a part leads to the node exactly when it is the node's name. -/
theorem WellFormed.step_eq_some_iff (wellFormed : t.WellFormed) (live : t.isLive id)
    (isParent : t.parent? id = some parent) {part : String} : t.step parent part = some id ↔ part = t.nameOf id := by
  have below := wellFormed.parent_lt isParent
  have liveParent := wellFormed.parentLive id parent live isParent
  constructor
  · intro found
    unfold step at found
    split at found
    · exact absurd (Option.some.inj found) (Nat.ne_of_lt below)
    · obtain ⟨node,inside,isAbove⟩ := Option.bind_eq_some_iff.mp found
      have above := wellFormed.parent_lt ((parent?_of_node? (liveNode?_eq_some_iff.mp inside).1).trans isAbove)
      exact absurd (Nat.lt_trans below above) (Nat.lt_irrefl _)
    · exact (wellFormed.child?_eq_some_iff.mp found).2.2.2.symm
  · rintro rfl
    rw [step_name (wellFormed.properNames id (lt_size_of_isLive live))]
    exact wellFormed.child?_eq_some_iff.mpr ⟨liveParent,live,isParent,rfl⟩

theorem ofList_eq_iff {cs : List Char} {s : String} : String.ofList cs = s ↔ cs = s.toList := by
  rw [← String.toList_inj,String.toList_ofList]

theorem WellFormed.resolve_path_root (wellFormed : t.WellFormed) :
    t.resolve start (t.path root) = some root ↔ trimEnd (t.nameOf root).toList = (t.nameOf root).toList := by
  have inside := lt_size_of_isLive wellFormed.rootLive
  have spelled := @trim_path t root [] wellFormed.components_root
  have free : ∀ part ∈ [trimEnd (t.nameOf root).toList], '/' ∉ part := by
    simpa using wellFormed.trimmed_free inside
  have named : t.name? root = some (String.ofList (trimEnd (t.nameOf root).toList)) ↔
      trimEnd (t.nameOf root).toList = (t.nameOf root).toList := by
    rw [name?_eq_some_iff,eq_comm (a := t.nameOf root),ofList_eq_iff]
    simp [wellFormed.rootLive]
  rw [resolve_absolute spelled free]
  simp [named]

theorem WellFormed.resolve_path_child (wellFormed : t.WellFormed) (live : t.isLive id)
    (isParent : t.parent? id = some parent) :
    t.resolve start (t.path id) = some id ↔ trimEnd (t.nameOf id).toList = (t.nameOf id).toList := by
  have inside := lt_size_of_isLive live
  have liveParent := wellFormed.parentLive id parent live isParent
  have insideParent := lt_size_of_isLive liveParent
  have trimmed := trim_path (wellFormed.components_child isParent)
  have walked := wellFormed.foldlM_step liveParent
  have whole (part) (member : part ∈ (t.components parent).map String.toList) :=
    wellFormed.component_free insideParent member
  obtain ⟨below,names⟩ := wellFormed.components_eq insideParent
  rw [names] at trimmed walked whole
  have spelled : trim (t.path id).toList = ((t.nameOf root).toList ::
      (below.map String.toList ++ [trimEnd (t.nameOf id).toList])).flatMap ('/' :: ·) := trimmed
  have free : ∀ part ∈ (t.nameOf root).toList :: (below.map String.toList ++ [trimEnd (t.nameOf id).toList]),
      '/' ∉ part := by
    intro part member
    rw [← List.cons_append,List.mem_append,List.mem_singleton] at member
    rcases member with above | rfl
    · exact (whole part above).1
    · exact wellFormed.trimmed_free inside
  have kept : (below.map String.toList).filter (!·.isEmpty) = below.map String.toList := by
    refine List.filter_eq_self.mpr fun part member => ?_
    simpa using (whole part (by simp_all)).2
  have named : t.name? root = some (String.ofList (t.nameOf root).toList) :=
    name?_eq_some_iff.mpr ⟨wellFormed.rootLive,String.ofList_toList.symm⟩
  have reread : (below.map String.toList).map String.ofList = below := by simp [Function.comp_def]
  rw [resolve_absolute spelled free,if_pos named,List.filter_append,kept,List.map_append,reread,List.foldlM_append]
  rw [List.tail_cons] at walked
  rw [walked,Option.bind_eq_bind,Option.bind_some]
  -- What is left is the last part, and none is left of a name that is all blank.
  by_cases blank : trimEnd (t.nameOf id).toList = []
  · have nonempty : (t.nameOf id).toList ≠ [] := by simpa using (wellFormed.properNames id inside).nonempty
    have other : parent ≠ id := Nat.ne_of_lt (wellFormed.parent_lt isParent)
    simp [blank,other,Ne.symm nonempty]
  · have solid : (trimEnd (t.nameOf id).toList).isEmpty = false := by simpa using blank
    simp only [List.filter_cons,List.filter_nil,solid,Bool.not_false,if_true,List.map_cons,List.map_nil,
      List.foldlM_cons,List.foldlM_nil,bind_pure]
    rw [wellFormed.step_eq_some_iff live isParent,ofList_eq_iff]

theorem WellFormed.resolve_path (wellFormed : t.WellFormed) (live : t.isLive id)
    (solid : trimEnd (t.nameOf id).toList = (t.nameOf id).toList) : t.resolve start (t.path id) = some id := by
  by_cases top : id = root
  · subst top
    exact wellFormed.resolve_path_root.mpr solid
  · obtain ⟨parent,isParent,_⟩ := wellFormed.parentBelow id (lt_size_of_isLive live) top
    exact (wellFormed.resolve_path_child live isParent).mpr solid

/-- In every reachable tree a path belongs to one live node, and from wherever it is followed it leads to that
node exactly when the node's own name does not end in a blank character. -/
theorem path_identifies (operations : List Operation) :
    (∀ a b, (new.run operations).isLive a → (new.run operations).isLive b →
      (new.run operations).path a = (new.run operations).path b → a = b) ∧
    ∀ id start, (new.run operations).isLive id →
      ((new.run operations).resolve start ((new.run operations).path id) = some id ↔
        ¬ ∃ c, ((new.run operations).nameOf id).toList.getLast? = some c ∧ isBlank c) := by
  have wellFormed := wellFormed_run operations
  refine ⟨fun a b liveA liveB same => wellFormed.path_inj liveA liveB same,?_⟩
  intro id start live
  have ends : (¬ ∃ c, ((new.run operations).nameOf id).toList.getLast? = some c ∧ isBlank c) ↔
      trimEnd ((new.run operations).nameOf id).toList = ((new.run operations).nameOf id).toList := by
    rw [trimEnd_eq_self_iff]
    simp
  rw [ends]
  by_cases top : id = root
  · rw [top]
    exact wellFormed.resolve_path_root
  · obtain ⟨parent,isParent,_⟩ := wellFormed.parentBelow id (lt_size_of_isLive live) top
    exact wellFormed.resolve_path_child live isParent

/-- A renamed root, a node whose name ends in a blank, and a node below it. -/
def spaced : List Operation :=
  [.addChild root "a ",.addChild 1 "b",.addChild root "c",.free 3,.invoke root "rename" [.string "top"]]

theorem path_identifies_spaced :
    (new.run spaced).path 2 = "/top/a /b" ∧ (new.run spaced).resolve 3 "/top/a /b" = some 2 ∧
      (new.run spaced).path 1 = "/top/a " ∧ (new.run spaced).resolve 9 "/top/a " ≠ some 1 := by
  have below : (new.run spaced).path 2 = "/top/a /b" := by decide
  have above : (new.run spaced).path 1 = "/top/a " := by decide
  have solid : ¬ ∃ c, ((new.run spaced).nameOf 2).toList.getLast? = some c ∧ isBlank c := by
    rintro ⟨c,last,blank⟩
    cases (show some 'b' = some c from last)
    cases blank
  refine ⟨below,?_,above,?_⟩
  · rw [← below]
    exact ((path_identifies spaced).2 2 3 (by decide)).mpr solid
  · rw [← above]
    intro found
    exact ((path_identifies spaced).2 1 9 (by decide)).mp found ⟨' ',by decide,by decide⟩

end TreeConsole.Tree
