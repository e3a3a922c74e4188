import TreeConsole.Builtin

/-! Sessions.
A session keeps a catalog of commands, its current target and its preferences between lines. The host's state
is lent to it for each line, so several sessions can share one host; a workspace is such a group.
-/
namespace TreeConsole

structure Session (σ : Type) where
  catalog : Catalog (Handler σ)
  current : Handle
  preferences : Preferences

/-- What one line did: the host's state and the session after it, the notices, and the outcome. -/
structure Reply (σ : Type) where
  host : σ
  session : Session σ
  notices : List Notice
  outcome : Outcome

namespace Session
variable {σ : Type}

def start (host : Host σ) (s : σ) (catalog : Catalog (Handler σ)) : Session σ :=
  ⟨catalog,host.root s,.initial⟩

def world (session : Session σ) (s : σ) : World σ := ⟨⟨s,session.current,[]⟩,session.preferences⟩

def execute (session : Session σ) (s : σ) (line : String) : Reply σ :=
  let (w,outcome) := session.catalog.executeLine line (session.world s)
  ⟨w.host,{ session with current := w.current,preferences := w.preferences },w.notices,outcome⟩

/-- Takes over preferences, moving to the start path when there is one. -/
def configure (host : Host σ) (session : Session σ) (s : σ) (preferences : Preferences) :
    Session σ × List Notice × Except ConsoleError Unit :=
  match preferences.startPath with
  | none => ({ session with preferences := preferences },[],.ok ())
  | some path =>
    match (session.world s).toFocus.select host path with
    | (f,.ok _) => ({ session with current := f.current,preferences := preferences },f.notices,.ok ())
    | (f,.error reason) => (session,f.notices,.error (.startPath path reason))

end Session

structure Workspace (σ : Type) where
  host : σ
  sessions : List (Session σ)

namespace Workspace
variable {σ : Type}

def execute (space : Workspace σ) (index : Nat) (line : String) : Option (Workspace σ × Reply σ) :=
  space.sessions[index]?.map fun session =>
    let reply := session.execute space.host line
    (⟨reply.host,space.sessions.set index reply.session⟩,reply)

end Workspace
end TreeConsole
