import TreeConsole.Tree

/-! Methods of nodes, and the tree as a host.
Every live node answers the same methods. A call first has its arguments counted and their kinds checked, and
then works on the tree in place.
-/
namespace TreeConsole

inductive Method where
  | getName
  | getPath
  | getChildCount
  | getChild
  | getChildren
  | getParent
  | find
  | addChild
  | rename
  | setMeta
  | getMeta
  | free
deriving DecidableEq

namespace Method

def name : Method → String
  | .getName => "get_name"
  | .getPath => "get_path"
  | .getChildCount => "get_child_count"
  | .getChild => "get_child"
  | .getChildren => "get_children"
  | .getParent => "get_parent"
  | .find => "find"
  | .addChild => "add_child"
  | .rename => "rename"
  | .setMeta => "set_meta"
  | .getMeta => "get_meta"
  | .free => "free"

def all : List Method :=
  [.getName,.getPath,.getChildCount,.getChild,.getChildren,.getParent,.find,.addChild,.rename,.setMeta,
    .getMeta,.free]

def ofName? (name : String) : Option Method := all.find? fun method => method.name == name

/-- The methods that a live node announces. Which ones a call reaches is looked up apart from them, by `ofName?`. -/
def names : List String :=
  ["get_name","get_path","get_child_count","get_child","get_children","get_parent","find","add_child","rename",
    "set_meta","get_meta","free"]

def arity : Method → Nat
  | .getChild | .find | .addChild | .rename | .getMeta => 1
  | .setMeta => 2
  | _ => 0

theorem ofName?_name (method : Method) : ofName? method.name = some method := by cases method <;> rfl

end Method

namespace Tree

def invalid (method : Method) (reason : String) : HostError := .invalidArguments method.name reason

def wrongCount (method : Method) (args : List Value) : HostError :=
  invalid method
    ("expected " ++ Value.natText method.arity ++ " argument(s), got " ++ Value.natText args.length)

def stringArgument (method : Method) (v : Value) : Except HostError String :=
  match v.asString? with
  | some s => .ok s
  | none => .error (invalid method "expected a string argument")

def indexArgument (method : Method) (v : Value) : Except HostError Int64 :=
  match v.asInt? with
  | some i => .ok i
  | none => .error (invalid method "index must be an integer")

def handleOrNull : Option Handle → Value
  | some id => .object id
  | none => .null

def childAt (node : Node) (index : Int64) : Except HostError Value :=
  let missing := HostError.failed ("child index " ++ Value.int64Text index ++ " out of range (0.."
    ++ Value.natText node.children.length ++ ")")
  if index < 0 then .error missing
  else match node.children[index.toInt.toNat]? with
    | some id => .ok (.object id)
    | none => .error missing

namespace Update

def rename (id : Handle) (node : Node) (name : String) : Update Unit := do
  ofExcept ((← get).checkName Method.rename.name node.parent name (some id))
  edit id fun node => { node with name := name }

def perform (id : Handle) (node : Node) (method : Method) (args : List Value) : Update Value :=
  match method,args with
  | .getName,[] => pure (.string node.name)
  | .getPath,[] => do pure (.string ((← get).path id))
  | .getChildCount,[] => pure (.int (Int64.ofNat node.children.length))
  | .getChild,[index] => do
    let index ← ofExcept (indexArgument method index)
    ofExcept (childAt node index)
  | .getChildren,[] => pure (.list (node.children.map .object))
  | .getParent,[] => pure (handleOrNull node.parent)
  | .find,[name] => do
    let name ← ofExcept (stringArgument method name)
    pure (handleOrNull ((← get).find id name))
  | .addChild,[name] => do
    let name ← ofExcept (stringArgument method name)
    pure (.object (← addChild id name))
  | .rename,[name] => do
    let name ← ofExcept (stringArgument method name)
    rename id node name
    pure .null
  | .setMeta,[key,v] => do
    let key ← ofExcept (stringArgument method key)
    edit id fun node => { node with metadata := node.metadata.insert key v }
    pure .null
  | .getMeta,[key] => do
    let key ← ofExcept (stringArgument method key)
    pure ((node.metadata.get? key).getD .null)
  | .free,[] => do
    free id
    pure .null
  | _,_ => throw (wrongCount method args)

def call (id : Handle) (method : String) (args : List Value) : Update Value := do
  match (← get).liveNode? id with
  | none => throw (.failed "node is no longer valid")
  | some node =>
    match Method.ofName? method with
    | some known => perform id node known args
    | none => throw (.notFound method)

end Update

def invoke (t : Tree) (id : Handle) (method : String) (args : List Value) : Tree × Except HostError Value :=
  (Update.call id method args).outcome t

/-- A live node by its path, a freed one by its handle. -/
def describe (t : Tree) (id : Handle) : String :=
  if t.isLive id then t.path id else "<freed " ++ Value.handleText id ++ ">"

def host : Host Tree where
  root := fun _ => root
  isLive := isLive
  resolve := resolve
  hasMethod := fun t id method => t.isLive id && Method.names.contains method
  invoke := invoke
  describe := describe

/-- The tree as a host that claims every method and names objects by their handles alone. -/
def openHost : Host Tree := { host with hasMethod := fun _ _ _ => true,describe := fun _ => Value.handleText }

end Tree
end TreeConsole
