import TreeConsole.Tree

/-! Views of a tree.
A node is seen through its liveness, parent, children, name and metadata. The lemmas here say what growing a tree and
modifying a node do to each view, so that later proofs open neither the array nor the record of a node.
-/
namespace TreeConsole.Tree
variable {t : Tree} {id other parent : Handle} {node : Node} {name : String} {f : Node → Node}

def parent? (t : Tree) (id : Handle) : Option Handle := (t.node? id).bind Node.parent

def children (t : Tree) (id : Handle) : List Handle := ((t.node? id).map Node.children).getD []

def metadata? (t : Tree) (id : Handle) : Option (Table Value) := (t.node? id).map Node.metadata

theorem node?_eq_none (beyond : t.size ≤ id) : t.node? id = none := Array.getElem?_eq_none beyond

theorem exists_node? (inside : id < t.size) : ∃ node, t.node? id = some node :=
  ⟨t.nodes[id],Array.getElem?_eq_getElem inside⟩

theorem lt_size_of_node? (found : t.node? id = some node) : id < t.size :=
  (Array.getElem?_eq_some_iff.mp found).1

theorem liveNode?_eq_some_iff : t.liveNode? id = some node ↔ t.node? id = some node ∧ node.live = true := by
  simp only [liveNode?,Option.filter_eq_some_iff]

theorem isLive_iff : t.isLive id ↔ ∃ node, t.node? id = some node ∧ node.live = true := by
  simp only [isLive,Option.isSome_iff_exists,liveNode?_eq_some_iff]

theorem isLive_of_liveNode? (found : t.liveNode? id = some node) : t.isLive id :=
  isLive_iff.mpr ⟨node,liveNode?_eq_some_iff.mp found⟩

theorem isLive_of_node? (found : t.node? id = some node) : t.isLive id = node.live := by
  cases live : node.live <;> simp [isLive,liveNode?,found,live]

theorem lt_size_of_isLive (live : t.isLive id) : id < t.size := by
  obtain ⟨node,found,_⟩ := isLive_iff.mp live
  exact lt_size_of_node? found

theorem parent?_of_node? (found : t.node? id = some node) : t.parent? id = node.parent := by
  simp [parent?,found]

theorem children_of_node? (found : t.node? id = some node) : t.children id = node.children := by
  simp [children,found]

theorem nameOf_of_node? (found : t.node? id = some node) : t.nameOf id = node.name := by
  simp [nameOf,found]

theorem lt_size_of_parent? (found : t.parent? id = some parent) : id < t.size := by
  obtain ⟨node,inside,_⟩ := Option.bind_eq_some_iff.mp found
  exact lt_size_of_node? inside

theorem name?_eq_some_iff : t.name? id = some name ↔ t.isLive id ∧ t.nameOf id = name := by
  simp only [name?,Option.map_eq_some_iff,liveNode?_eq_some_iff]
  constructor
  · rintro ⟨node,⟨found,live⟩,rfl⟩
    exact ⟨isLive_iff.mpr ⟨node,found,live⟩,nameOf_of_node? found⟩
  · rintro ⟨live,rfl⟩
    obtain ⟨node,found,alive⟩ := isLive_iff.mp live
    exact ⟨node,⟨found,alive⟩,(nameOf_of_node? found).symm⟩

/-! Modifying one node -/

@[simp]
theorem size_modify : (t.modify id f).size = t.size := by simp [size,modify]

theorem node?_modify : (t.modify id f).node? other = if other = id then (t.node? other).map f else t.node? other := by
  simp only [node?,modify,Array.getElem?_modify,eq_comm (a := id)]

private theorem field_modify {α : Type} {field : Node → α} (same : ∀ node, field (f node) = field node) :
    ((t.modify id f).node? other).map field = (t.node? other).map field := by
  rw [node?_modify]
  split
  · rw [Option.map_map]
    exact congrArg (Option.map · (t.node? other)) (funext same)
  · rfl

theorem isLive_eq_field : t.isLive id = ((t.node? id).map Node.live).getD false := by
  cases found : t.node? id with
  | none => simp [isLive,liveNode?,found]
  | some node => simp [isLive_of_node? found]

theorem parent?_eq_field : t.parent? id = ((t.node? id).map Node.parent).getD none := by
  unfold parent?
  cases t.node? id <;> rfl

theorem isLive_modify (same : ∀ node, (f node).live = node.live) : (t.modify id f).isLive other = t.isLive other := by
  rw [isLive_eq_field,isLive_eq_field,field_modify same]

theorem isLive_modify_dead (dead : ∀ node, (f node).live = false) :
    (t.modify id f).isLive other = (t.isLive other && other != id) := by
  simp only [isLive_eq_field,node?_modify]
  split
  next same => cases t.node? other <;> simp [dead,same]
  next different => simp [different]

theorem parent?_modify (same : ∀ node, (f node).parent = node.parent) :
    (t.modify id f).parent? other = t.parent? other := by
  rw [parent?_eq_field,parent?_eq_field,field_modify same]

theorem children_modify (same : ∀ node, (f node).children = node.children) :
    (t.modify id f).children other = t.children other := by
  rw [children,children,field_modify same]

theorem children_modify_of {g : List Handle → List Handle} (change : ∀ node, (f node).children = g node.children)
    (inside : id < t.size) :
    (t.modify id f).children other = if other = id then g (t.children id) else t.children other := by
  obtain ⟨node,found⟩ := exists_node? inside
  simp only [children,node?_modify]
  split
  next same => simp [same,found,change]
  next => rfl

theorem nameOf_modify (same : ∀ node, (f node).name = node.name) : (t.modify id f).nameOf other = t.nameOf other := by
  rw [nameOf,nameOf,field_modify same]

theorem nameOf_modify_of (named : ∀ node, (f node).name = name) (inside : id < t.size) :
    (t.modify id f).nameOf other = if other = id then name else t.nameOf other := by
  obtain ⟨node,found⟩ := exists_node? inside
  simp only [nameOf,node?_modify]
  split
  next same => simp [same,found,named]
  next => rfl

theorem metadata?_modify (same : ∀ node, (f node).metadata = node.metadata) :
    (t.modify id f).metadata? other = t.metadata? other := field_modify same

/-! Growing -/

/-- The tree with one more node, a child at the end of the parent's children. -/
def sprout (t : Tree) (parent : Handle) (name : String) : Tree :=
  (⟨t.nodes.push (newNode name (some parent))⟩ : Tree).modify parent fun node =>
    { node with children := node.children ++ [t.size] }

theorem node?_push (node : Node) :
    (⟨t.nodes.push node⟩ : Tree).node? id = if id = t.size then some node else t.node? id := Array.getElem?_push

@[simp]
theorem size_sprout : (t.sprout parent name).size = t.size + 1 := by simp [sprout,size,modify]

theorem isLive_sprout : (t.sprout parent name).isLive id = (t.isLive id || id == t.size) := by
  rw [sprout,isLive_modify (by intro _; rfl)]
  simp only [isLive_eq_field,node?_push]
  split
  next fresh => simp [fresh,newNode]
  next old => simp [old]

theorem parent?_sprout : (t.sprout parent name).parent? id = if id = t.size then some parent else t.parent? id := by
  rw [sprout,parent?_modify (by intro _; rfl)]
  simp only [parent?,node?_push]
  split <;> simp [newNode]

theorem nameOf_sprout : (t.sprout parent name).nameOf id = if id = t.size then name else t.nameOf id := by
  rw [sprout,nameOf_modify (by intro _; rfl)]
  simp only [nameOf,node?_push]
  split <;> simp [newNode]

theorem children_sprout (inside : parent < t.size) :
    (t.sprout parent name).children id = if id = parent then t.children parent ++ [t.size] else t.children id := by
  have pushed (other : Handle) :
      (⟨t.nodes.push (newNode name (some parent))⟩ : Tree).children other = t.children other := by
    simp only [children,node?_push]
    split
    next fresh => simp [fresh,newNode,node?_eq_none (t := t) (Nat.le_refl _)]
    next => rfl
  have room : parent < (⟨t.nodes.push (newNode name (some parent))⟩ : Tree).size := by
    simpa [size] using Nat.lt_succ_of_lt inside
  rw [sprout,children_modify_of (g := (· ++ [t.size])) (fun _ => rfl) room,pushed,pushed]

theorem metadata?_sprout :
    (t.sprout parent name).metadata? id = if id = t.size then some .empty else t.metadata? id := by
  rw [sprout,metadata?_modify (by intro _; rfl)]
  simp only [metadata?,node?_push]
  split <;> rfl

/-! Freeing -/

/-- The tree with one node dead and its children forgotten. -/
def close (t : Tree) (id : Handle) : Tree := t.modify id fun node => { node with children := [],live := false }

theorem release_cons (steps : Nat) (queue : List Handle) :
    t.release (steps + 1) (id :: queue) = (t.close id).release steps (queue ++ t.children id) := rfl

@[simp]
theorem size_close : (t.close id).size = t.size := size_modify

theorem isLive_close : (t.close id).isLive other = (t.isLive other && other != id) :=
  isLive_modify_dead fun _ => rfl

theorem parent?_close : (t.close id).parent? other = t.parent? other := parent?_modify fun _ => rfl

theorem nameOf_close : (t.close id).nameOf other = t.nameOf other := nameOf_modify fun _ => rfl

theorem metadata?_close : (t.close id).metadata? other = t.metadata? other := metadata?_modify fun _ => rfl

theorem children_close (inside : id < t.size) :
    (t.close id).children other = if other = id then [] else t.children other :=
  children_modify_of (g := fun _ => []) (fun _ => rfl) inside

theorem detach_cases (t : Tree) (id : Handle) : t.detach id = t ∨ ∃ parent,
    t.detach id = t.modify parent fun node => { node with children := node.children.filter (· != id) } := by
  unfold detach
  split
  · exact .inr ⟨_,rfl⟩
  · exact .inl rfl

theorem size_detach : (t.detach id).size = t.size := by
  rcases detach_cases t id with same | ⟨parent,changed⟩
  · rw [same]
  · rw [changed,size_modify]

theorem isLive_detach : (t.detach id).isLive other = t.isLive other := by
  rcases detach_cases t id with same | ⟨parent,changed⟩
  · rw [same]
  · rw [changed,isLive_modify (by intro _; rfl)]

theorem parent?_detach : (t.detach id).parent? other = t.parent? other := by
  rcases detach_cases t id with same | ⟨parent,changed⟩
  · rw [same]
  · rw [changed,parent?_modify (by intro _; rfl)]

theorem nameOf_detach : (t.detach id).nameOf other = t.nameOf other := by
  rcases detach_cases t id with same | ⟨parent,changed⟩
  · rw [same]
  · rw [changed,nameOf_modify (by intro _; rfl)]

theorem metadata?_detach : (t.detach id).metadata? other = t.metadata? other := by
  rcases detach_cases t id with same | ⟨parent,changed⟩
  · rw [same]
  · rw [changed,metadata?_modify (by intro _; rfl)]

theorem children_detach (isParent : t.parent? id = some parent) (inside : parent < t.size) :
    (t.detach id).children other =
      if other = parent then (t.children parent).filter (· != id) else t.children other := by
  have isParent : (t.node? id).bind Node.parent = some parent := isParent
  simp only [detach,isParent]
  exact children_modify_of (g := List.filter (· != id)) (fun _ => rfl) inside

end TreeConsole.Tree
