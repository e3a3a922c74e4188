import TreeConsole.Chain

/-! The focus of a session.
A session looks at one object of the host, its current target. It moves by paths and calls chains of methods;
a call after the first goes to the object that the call before it returned, when that is a live object, and
else to the current target. The first call that fails ends its chain. Observers are told of every attempt.
-/
namespace TreeConsole

inductive Rejection where
  | invalidPath
  | invalidTarget
deriving DecidableEq

def Rejection.message : Rejection → String
  | .invalidPath => "Invalid path."
  | .invalidTarget => "Invalid target: no live object at that path."

inductive Notice where
  | targetChanged (id : Handle)
  | targetChangeFailed (reason : Rejection)
  | methodCalled (method : String) (result : Value) (succeeded : Bool)

structure Focus (σ : Type) where
  host : σ
  current : Handle
  notices : List Notice

structure Completed where
  method : String
  value : Value

/-- The calls of a chain that succeeded, as they were handed over one by one, and the answer of the chain. -/
structure ChainRun where
  completed : List Completed
  answer : Except ChainError (List Completed)

def ChainRun.failure (run : ChainRun) : Option ChainError :=
  match run.answer with
  | .ok _ => none
  | .error error => some error

namespace Focus
variable {σ : Type}

def notify (f : Focus σ) (notice : Notice) : Focus σ := { f with notices := f.notices ++ [notice] }

def reject (f : Focus σ) (reason : Rejection) : Focus σ × Except Rejection Handle :=
  (f.notify (.targetChangeFailed reason),.error reason)

def reach (host : Host σ) (s : σ) (start : Handle) (path : String) : Option Handle :=
  (host.resolve s start path).filter (host.isLive s)

/-- The live object at a path, from the current target while that is live, and else from the root. -/
def locate (host : Host σ) (f : Focus σ) (path : String) : Option Handle :=
  (if host.isLive f.host f.current then reach host f.host f.current path else none).or
    (reach host f.host (host.root f.host) path)

def select (host : Host σ) (f : Focus σ) (path : String) : Focus σ × Except Rejection Handle :=
  let path := Text.trimmed path
  if path.isEmpty then f.reject .invalidPath
  else match f.locate host path with
    | some id => ({ f with current := id }.notify (.targetChanged id),.ok id)
    | none => f.reject .invalidTarget

def fail {α : Type} (f : Focus σ) (method : String) (error : ChainError) : Focus σ × Except ChainError α :=
  (f.notify (.methodCalled method .null false),.error error)

def call (host : Host σ) (f : Focus σ) (receiver : Handle) (c : Call) : Focus σ × Except ChainError Value :=
  if !host.isLive f.host receiver then f.fail c.method (.invalidInstance c.method)
  else if !host.hasMethod f.host receiver c.method then
    f.fail c.method (.invalidMethod c.method (host.describe f.host receiver))
  else
    let (s,result) := host.invoke f.host receiver c.method c.args
    let f := { f with host := s }
    match result with
    | .ok v => (f.notify (.methodCalled c.method v true),.ok v)
    | .error (.notFound _) => f.fail c.method (.invalidMethod c.method (host.describe s receiver))
    | .error error => f.fail c.method (.invocation c.method error)

/-- Who receives the next call: the last result if it is a live object, and else the current target. -/
def receiver (host : Host σ) (f : Focus σ) (previous : Option Value) : Handle :=
  ((previous.bind Value.asObject?).filter (host.isLive f.host)).getD f.current

/-- Runs calls from left to right up to the first failure. Each result joins the `results` so far and is handed
to `onStep` before the next call starts. -/
def runCalls {τ : Type} (host : Host σ) (onStep : τ → Completed → τ) (f : Focus σ) (seen : τ)
    (results : List Completed) : List Call → Focus σ × τ × Except ChainError (List Completed)
  | [] => (f,seen,.ok results)
  | c :: rest =>
    match f.call host (f.receiver host (results.getLast?.map Completed.value)) c with
    | (f,.error error) => (f,seen,.error error)
    | (f,.ok v) => f.runCalls host onStep (onStep seen ⟨c.method,v⟩) (results ++ [⟨c.method,v⟩]) rest

/-- Runs a chain; nothing is called unless all of it is well formed. -/
def runChainWith {τ : Type} (host : Host σ) (onStep : τ → Completed → τ) (f : Focus σ) (seen : τ) (text : String) :
    Focus σ × τ × Except ChainError (List Completed) :=
  match Chain.read text with
  | .ok calls => f.runCalls host onStep seen [] calls
  | .error error => (f,seen,.error error)

def runChain (host : Host σ) (f : Focus σ) (text : String) : Focus σ × ChainRun :=
  let (f,completed,answer) := f.runChainWith host (fun seen done => seen ++ [done]) [] text
  (f,⟨completed,answer⟩)

end Focus
end TreeConsole
