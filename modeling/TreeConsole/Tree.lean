import TreeConsole.Host
import TreeConsole.Table
import TreeConsole.Text.Split

/-! Trees of named nodes.
Nodes are numbered in the order of their creation and the root is node zero. A freed node keeps its number,
name and parent but is no longer live and has no children, and no number is ever used again. Walks through
the links take at most as many steps as there are nodes.
-/
namespace TreeConsole

structure Node where
  name : String
  parent : Option Handle
  children : List Handle
  metadata : Table Value
  live : Bool

structure Tree where
  nodes : Array Node

namespace Tree
open Text

def root : Handle := 0

def newNode (name : String) (parent : Option Handle) : Node := ⟨name,parent,[],.empty,true⟩

def new : Tree := ⟨#[newNode "root" none]⟩

def size (t : Tree) : Nat := t.nodes.size

def node? (t : Tree) (id : Handle) : Option Node := t.nodes[id]?

def liveNode? (t : Tree) (id : Handle) : Option Node := (t.node? id).filter Node.live

def isLive (t : Tree) (id : Handle) : Bool := (t.liveNode? id).isSome

def name? (t : Tree) (id : Handle) : Option String := (t.liveNode? id).map Node.name

/-- The name that a node, live or not, was given last. -/
def nameOf (t : Tree) (id : Handle) : String := ((t.node? id).map Node.name).getD ""

def modify (t : Tree) (id : Handle) (f : Node → Node) : Tree := ⟨t.nodes.modify id f⟩

/-- A node and its ancestors, the node first, in at most `steps` steps. -/
def climb (t : Tree) : (steps : Nat) → Handle → List Handle
  | 0,_ => []
  | steps + 1,id =>
    match t.node? id with
    | none => []
    | some node => id :: (node.parent.map (t.climb steps)).getD []

def lineage (t : Tree) (id : Handle) : List Handle := t.climb t.size id

/-- The names from the top of a node's lineage down to it, each after a slash. -/
def path (t : Tree) (id : Handle) : String :=
  "/" ++ "/".intercalate ((t.lineage id).reverse.map t.nameOf)

def child? (t : Tree) (parent : Handle) (name : String) : Option Handle :=
  (t.liveNode? parent).bind fun node => node.children.find? fun id => t.name? id == some name

/-- A name that a path can lead to: not empty, without a slash, and neither `.` nor `..`. -/
def validName (name : String) : Bool := !(name.isEmpty || name.toList.contains '/' || name == "." || name == "..")

/-- Refuses a name that no path leads to, or that another child of the same parent has. -/
def checkName (t : Tree) (method : String) (parent : Option Handle) (name : String) (self : Option Handle) :
    Except HostError Unit :=
  if !validName name then .error (.invalidArguments method ("'" ++ name ++ "' is not a valid node name"))
  else match parent.bind fun id => (t.child? id name).map fun taken => (id,taken) with
    | some (id,taken) =>
      if some taken = self then .ok ()
      else .error (.failed ("'" ++ t.path id ++ "' already has a child named '" ++ name ++ "'"))
    | none => .ok ()

/-- Frees the queued nodes and everything below them, level by level. -/
def release (t : Tree) : (steps : Nat) → List Handle → Tree
  | 0,_ => t
  | _,[] => t
  | steps + 1,id :: queue =>
    let below := ((t.node? id).map Node.children).getD []
    (t.modify id fun node => { node with children := [],live := false }).release steps (queue ++ below)

def detach (t : Tree) (id : Handle) : Tree :=
  match (t.node? id).bind Node.parent with
  | some parent => t.modify parent fun node => { node with children := node.children.filter (· != id) }
  | none => t

/-- An operation that works on a tree in place and stops at its first error. What it has changed by then stays changed. -/
abbrev Update (α : Type) := EStateM HostError Tree α

namespace Update
variable {α : Type}

def require (holds : Bool) (error : HostError) : Update Unit := if holds then pure () else throw error

def ofExcept (result : Except HostError α) : Update α :=
  match result with
  | .ok a => pure a
  | .error error => throw error

def change (f : Tree → Tree) : Update Unit := modifyGet fun t => ((),f t)

def edit (id : Handle) (f : Node → Node) : Update Unit := change fun t => t.modify id f

/-- Adds a child at the end of a live node's children and answers its handle. -/
def addChild (parent : Handle) (name : String) : Update Handle := do
  let t ← get
  require (t.isLive parent) (.failed "parent node is no longer valid")
  ofExcept (t.checkName "add_child" (some parent) name none)
  change fun t => ⟨t.nodes.push (newNode name (some parent))⟩
  edit parent fun node => { node with children := node.children ++ [t.size] }
  pure t.size

/-- Frees a live node and all its descendants; the root stays. -/
def free (id : Handle) : Update Unit := do
  let t ← get
  require (t.isLive id) (.failed "node is already freed")
  require (id != root) (.failed "the root node cannot be freed")
  change fun t => t.detach id
  change fun detached => detached.release t.size [id]

/-- The tree that an operation leaves, and its answer. -/
def outcome (operation : Update α) (t : Tree) : Tree × Except HostError α :=
  match operation t with
  | .ok a after => (after,.ok a)
  | .error error after => (after,.error error)

/-- The tree that an operation leaves and its answer, or its error alone. -/
def result (operation : Update α) (t : Tree) : Except HostError (Tree × α) :=
  let (after,answer) := operation.outcome t
  answer.map fun a => (after,a)

end Update

def addChild (t : Tree) (parent : Handle) (name : String) : Except HostError (Tree × Handle) :=
  (Update.addChild parent name).result t

def free (t : Tree) (id : Handle) : Except HostError Tree := ((Update.free id).result t).map Prod.fst

/-- The first of the queued nodes and their descendants, level by level, with a name. -/
def search (t : Tree) (name : String) : (steps : Nat) → List Handle → Option Handle
  | 0,_ => none
  | _,[] => none
  | steps + 1,id :: queue =>
    match t.liveNode? id with
    | none => none
    | some node => if node.name = name then some id else t.search name steps (queue ++ node.children)

/-- The nearest descendant with a name; of several equally near, the leftmost. -/
def find (t : Tree) (id : Handle) (name : String) : Option Handle :=
  (t.liveNode? id).bind fun node => t.search name t.size node.children

/-- One part of a path: a dot stays, two dots go to the parent, a name goes to the child. -/
def step (t : Tree) (id : Handle) (part : String) : Option Handle :=
  match part with
  | "." => some id
  | ".." => (t.liveNode? id).bind Node.parent
  | name => t.child? id name

/-- Follows the parts between slashes from a live node; empty parts are skipped. -/
def follow (t : Tree) (id : Handle) (parts : List Char) : Option Handle :=
  if t.isLive id then
    (((pieces (· == '/') parts).filter (!·.isEmpty)).map String.ofList).foldlM t.step id
  else none

/-- Finds a node by a path. After a leading slash the first part has to be the root's name. -/
def resolve (t : Tree) (start : Handle) (path : String) : Option Handle :=
  match trim path.toList with
  | [] => none
  | '/' :: rest =>
    let (top,parts) := (cut '/' rest).getD (rest,[])
    if t.name? root = some (String.ofList top) then t.follow root parts else none
  | parts => t.follow start parts

end Tree
end TreeConsole
