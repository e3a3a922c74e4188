import TreeConsole.Proofs.Tree.Naming
import TreeConsole.Proofs.Tree.Subtree

/-! Renaming.
A node that is given another name moves itself and all that is under it, live or freed: one component of their paths
becomes the new name. Nothing else of any node changes, and paths still tell live nodes apart.
-/
namespace TreeConsole.Tree
variable {t after : Tree} {id other : Handle} {name : String}

/-- The path of these names, from the top down. -/
def spell (names : List String) : String := "/" ++ "/".intercalate names

theorem path_eq_spell (t : Tree) (id : Handle) : t.path id = spell (t.components id) := rfl

def relabel (t : Tree) (id : Handle) (name : String) : Tree := t.modify id fun node => { node with name := name }

/-- A tree after one of its nodes was given another name. -/
structure Renamed (t : Tree) (id : Handle) (name : String) (after : Tree) : Prop where
  size : after.size = t.size
  kept : ∀ other, after.isLive other = t.isLive other ∧ after.parent? other = t.parent? other ∧
    after.children other = t.children other ∧ after.metadata? other = t.metadata? other
  moved : ∀ other, t.Under other id → ∃ above below, t.components id = above ++ [t.nameOf id] ∧
    t.path other = spell (above ++ t.nameOf id :: below) ∧ after.path other = spell (above ++ name :: below)
  stays : ∀ other, other < t.size → ¬ t.Under other id → after.path other = t.path other
  distinct : ∀ a b, after.isLive a → after.isLive b → after.path a = after.path b → a = b

/-! What is given another name -/

theorem isLive_relabel : (t.relabel id name).isLive other = t.isLive other := isLive_modify fun _ => rfl

theorem parent?_relabel : (t.relabel id name).parent? other = t.parent? other := parent?_modify fun _ => rfl

theorem children_relabel : (t.relabel id name).children other = t.children other := children_modify fun _ => rfl

theorem metadata?_relabel : (t.relabel id name).metadata? other = t.metadata? other := metadata?_modify fun _ => rfl

theorem nameOf_relabel (inside : id < t.size) :
    (t.relabel id name).nameOf other = if other = id then name else t.nameOf other :=
  nameOf_modify_of (fun _ => rfl) inside

/-! Lineages -/

theorem climb_modify {f : Node → Node} (same : ∀ node, (f node).parent = node.parent) (steps : Nat) :
    (t.modify id f).climb steps other = t.climb steps other := by
  induction steps generalizing other with
  | zero => rfl
  | succ steps ih =>
    have later : (t.modify id f).climb steps = t.climb steps := funext fun _ => ih
    unfold climb
    rw [node?_modify,later]
    by_cases here : other = id
    · rw [if_pos here]
      cases t.node? other with
      | none => rfl
      | some node => simp only [Option.map_some,same]
    · rw [if_neg here]

theorem lineage_relabel : (t.relabel id name).lineage other = t.lineage other := by
  rw [lineage,lineage,relabel,size_modify]
  exact climb_modify (by intro _; rfl) t.size

theorem Layout.under_of_mem_lineage (layout : t.Layout) (inside : other < t.size) (member : id ∈ t.lineage other) :
    t.Under other id := by
  refine layout.induction (motive := fun other => id ∈ t.lineage other → t.Under other id) ?_ ?_ inside member
  · intro member
    rw [layout.lineage_root,List.mem_singleton] at member
    exact member ▸ .refl
  · intro other parent isParent ih member
    rw [layout.lineage_child isParent] at member
    rcases List.mem_cons.mp member with rfl | above
    · exact .refl
    · exact .head isParent (ih above)

theorem Layout.lineage_eq (layout : t.Layout) (inside : id < t.size) :
    ∃ above, t.lineage id = id :: above ∧ id ∉ above := by
  by_cases top : id = root
  · subst top
    exact ⟨[],layout.lineage_root,List.not_mem_nil⟩
  · obtain ⟨parent,isParent,below⟩ := layout.parentBelow id inside top
    refine ⟨t.lineage parent,layout.lineage_child isParent,fun member => ?_⟩
    have above := layout.under_of_mem_lineage (Nat.lt_trans below inside) member
    exact absurd (layout.le_of_under above) (Nat.not_le_of_lt below)

/-- The lineage of a node that is under another one ends in the lineage of that one, which occurs nowhere before. -/
theorem Layout.lineage_under (layout : t.Layout) (under : t.Under other id) :
    ∃ below, t.lineage other = below ++ t.lineage id ∧ id ∉ below := by
  induction under using Relation.ReflTransGen.head_induction_on with
  | refl => exact ⟨[],rfl,List.not_mem_nil⟩
  | @head lower parent isParent under ih =>
    obtain ⟨below,whole,absent⟩ := ih
    refine ⟨lower :: below,by rw [layout.lineage_child isParent,whole,List.cons_append],?_⟩
    have deeper : id < lower := Nat.lt_of_le_of_lt (layout.le_of_under under) (layout.parent_lt isParent)
    exact List.not_mem_cons_of_ne_of_not_mem (Nat.ne_of_lt deeper) absent

/-! Paths -/

theorem map_nameOf_relabel (inside : id < t.size) {nodes : List Handle} (absent : id ∉ nodes) :
    nodes.map (t.relabel id name).nameOf = nodes.map t.nameOf := by
  refine List.map_congr_left fun other member => ?_
  rw [nameOf_relabel inside,if_neg]
  rintro rfl
  exact absent member

theorem Layout.path_relabel_moved (layout : t.Layout) (inside : id < t.size) (under : t.Under other id) :
    ∃ above below, t.components id = above ++ [t.nameOf id] ∧ t.path other = spell (above ++ t.nameOf id :: below) ∧
      (t.relabel id name).path other = spell (above ++ name :: below) := by
  obtain ⟨above,upper,outside⟩ := layout.lineage_eq inside
  obtain ⟨below,whole,absent⟩ := layout.lineage_under under
  rw [upper] at whole
  have named : (t.relabel id name).nameOf id = name := (nameOf_relabel inside).trans (if_pos rfl)
  refine ⟨above.reverse.map t.nameOf,below.reverse.map t.nameOf,?_,?_,?_⟩
  · simp [components,upper]
  · simp [path_eq_spell,components,whole]
  · have upper_kept : above.reverse.map (t.relabel id name).nameOf = above.reverse.map t.nameOf :=
      map_nameOf_relabel inside (by simpa using outside)
    have lower_kept : below.reverse.map (t.relabel id name).nameOf = below.reverse.map t.nameOf :=
      map_nameOf_relabel inside (by simpa using absent)
    simp only [path_eq_spell,components,lineage_relabel,whole,List.reverse_append,List.reverse_cons,List.map_append,
      List.map_cons,List.append_assoc,List.singleton_append,upper_kept,lower_kept,named]

theorem Layout.path_relabel_stays (layout : t.Layout) (inside : id < t.size) (allocated : other < t.size)
    (outside : ¬ t.Under other id) : (t.relabel id name).path other = t.path other := by
  have absent : id ∉ (t.lineage other).reverse := by
    rw [List.mem_reverse]
    exact fun member => outside (layout.under_of_mem_lineage allocated member)
  rw [path_eq_spell,path_eq_spell,components,components,lineage_relabel,map_nameOf_relabel inside absent]

theorem isLive_of_invoke_ok {method : String} {args : List Value} {v : Value}
    (ok : t.invoke id method args = (after,.ok v)) : t.isLive id := by
  obtain ⟨node,_,found,_⟩ := Update.exists_of_call (Update.outcome_eq_ok_iff.mp ok)
  exact isLive_of_liveNode? found

theorem WellFormed.renamed (wellFormed : t.WellFormed) {v : Value}
    (ok : t.invoke id "rename" [.string name] = (after,.ok v)) : Renamed t id name after := by
  obtain ⟨proper,unused,same⟩ := invoke_rename_ok ok
  have live := isLive_of_invoke_ok ok
  have inside := lt_size_of_isLive live
  obtain rfl : after = t.relabel id name := same
  have relabelled : (t.relabel id name).WellFormed := wellFormed.rename live proper unused
  refine ⟨size_modify,?_,?_,?_,?_⟩
  · intro other
    exact ⟨isLive_relabel,parent?_relabel,children_relabel,metadata?_relabel⟩
  · intro other under
    exact wellFormed.path_relabel_moved inside under
  · intro other allocated outside
    exact wellFormed.path_relabel_stays inside allocated outside
  · intro a b liveA liveB
    exact relabelled.path_inj liveA liveB

/-- In every reachable tree a rename that succeeds puts the name in the place of one component, the node's own, of the
paths of the node and of all nodes under it, freed ones too. All other paths, and all else of every node, stay, and live
nodes have different paths. -/
theorem rename_moves_component (operations : List Operation) (id : Handle) (name : String) (after : Tree) (v : Value)
    (ok : (new.run operations).invoke id "rename" [.string name] = (after,.ok v)) :
    Renamed (new.run operations) id name after :=
  (wellFormed_run operations).renamed ok

/-- One has the children two and three, and two was freed; four is a child of the root. -/
def wooded : List Operation :=
  [.addChild root "a",.addChild 1 "b",.addChild 1 "c",.addChild root "d",.free 2]

theorem rename_moves_component_wooded :
    ∃ after, (new.run wooded).invoke 1 "rename" [.string "b"] = (after,.ok .null) ∧
      Renamed (new.run wooded) 1 "b" after ∧ after.path 2 = "/root/b/b" ∧ after.path 4 = "/root/d" :=
  ⟨_,rfl,rename_moves_component wooded 1 "b" _ .null rfl,by decide,by decide⟩

end TreeConsole.Tree
