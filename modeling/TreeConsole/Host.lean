import TreeConsole.Value

/-! Hosts.
A host owns the objects that a session visits and calls. Its state is of any type; a session knows it only
through these operations, holds handles, and asks whether a handle is live before each use.
-/
namespace TreeConsole

inductive HostError where
  | notFound (method : String)
  | invalidArguments (method reason : String)
  | failed (reason : String)
deriving DecidableEq

def HostError.message : HostError → String
  | .notFound method => "method '" ++ method ++ "' not found"
  | .invalidArguments method reason => "invalid arguments for '" ++ method ++ "': " ++ reason
  | .failed reason => reason

/-- The operations of a host with states in `σ`. -/
structure Host (σ : Type) where
  root : σ → Handle
  isLive : σ → Handle → Bool
  /-- Finds an object by a path that starts at another object, or at the root. -/
  resolve : σ → Handle → String → Option Handle
  hasMethod : σ → Handle → String → Bool
  /-- Calls a method; the host may change whether or not the call succeeds. -/
  invoke : σ → Handle → String → List Value → σ × Except HostError Value
  /-- Names an object in messages. -/
  describe : σ → Handle → String

def Host.render {σ : Type} (host : Host σ) (s : σ) (v : Value) : String := v.render (host.describe s)

end TreeConsole
