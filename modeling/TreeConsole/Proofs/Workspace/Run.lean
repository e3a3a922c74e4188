import TreeConsole.Proofs.Session.Command
import TreeConsole.Proofs.Tree.History

/-! Runs of a workspace.
Sessions over one tree take turns, and the tree may also be changed past all of them. For one session such a run is
its own lines, and between them a tree on which operations were run.
-/
namespace TreeConsole

/-! What a line does to the tree -/

namespace Focus
open TreeConsole.Tree
variable {t last : Tree} {current : Handle} {previous : Option Value} {calls : List Call} {done : List Completed}

theorem Succeeds.run (all : Succeeds Tree.host current t previous calls done last) :
    ∃ operations, last = t.run operations := by
  induction all with
  | nil => exact ⟨[],rfl⟩
  | @cons s next last previous c v later done live has answered rest ih =>
    obtain ⟨operations,reached⟩ := ih
    have applied : (s.apply (.invoke (recipient Tree.host s current previous) c.method c.args)).1 = next :=
      congrArg Prod.fst answered
    exact ⟨.invoke (recipient Tree.host s current previous) c.method c.args :: operations,by
      rw [Tree.run_cons,applied,reached]⟩

theorem Fails.run {c : Call} {error : ChainError} (failed : Fails Tree.host current t previous c error last) :
    ∃ operations, last = t.run operations := by
  have asked {answer : Except HostError Value}
      (answered : t.apply (.invoke (recipient Tree.host t current previous) c.method c.args) = (last,answer)) :
      ∃ operations, last = t.run operations :=
    ⟨[.invoke (recipient Tree.host t current previous) c.method c.args],(congrArg Prod.fst answered).symm⟩
  cases failed with
  | dead => exact ⟨[],rfl⟩
  | missing => exact ⟨[],rfl⟩
  | unknown _ _ answered => exact asked answered
  | refused _ _ answered => exact asked answered

theorem runChain_run (f : Focus Tree) (text : String) :
    ∃ operations, (f.runChain Tree.host text).1.host = f.host.run operations := by
  unfold runChain runChainWith
  cases Chain.read text with
  | error => exact ⟨[],rfl⟩
  | ok calls =>
    obtain ⟨done,g,answer,run,ran⟩ := runCalls_runs Tree.host (fun seen step => seen ++ [step]) f [] [] calls
    simp only [ran]
    cases run with
    | finished all => exact all.run
    | stopped later before failed =>
      obtain ⟨first,reached⟩ := before.run
      obtain ⟨second,left⟩ := failed.run
      exact ⟨first ++ second,by rw [Tree.run_append,← reached,← left]⟩

end Focus

namespace Session

theorem execute_run {session : Session Tree} (isBuiltin : session.catalog = (Builtin.catalog Tree.host).1) (t : Tree)
    (line : String) : ∃ operations, (session.execute t line).host = t.run operations := by
  rcases (framed_of_builtin isBuiltin t line).host with kept | called
  · exact ⟨[],kept⟩
  · cases tokens : Text.tokenize line with
    | nil =>
      rw [tokens] at called
      cases called
    | cons name rest =>
      rw [tokens] at called
      cases called
      cases rest with
      | nil =>
        obtain ⟨error,refused⟩ := Builtin.bind_chain_nil
        rw [execute_unbound tokens (find?_chain isBuiltin) refused]
        exact ⟨[],rfl⟩
      | cons token more =>
        have reached := Focus.runChain_run (session.world t).toFocus (Catalog.remainder line)
        cases ran : (session.world t).toFocus.runChain Tree.host (Catalog.remainder line) with
        | mk f run =>
          rw [ran] at reached
          rw [execute_chain isBuiltin tokens ran]
          exact reached

end Session

inductive Turn where
  | line (index : Nat) (text : String)
  | operation (operation : Tree.Operation)

/-- The line of a turn that is the turn of this session. -/
def Turn.own? (index : Nat) : Turn → Option String
  | .line other text => if other = index then some text else none
  | .operation _ => none

def ownLines (index : Nat) (turns : List Turn) : List String := turns.filterMap (Turn.own? index)

namespace Workspace
open TreeConsole.Tree
variable {space : Workspace Tree} {index : Nat} {session : Session Tree} {line : String} {turns : List Turn}

def ofBuiltins (t : Tree) (starts : List (Handle × Preferences)) : Workspace Tree :=
  ⟨t,starts.map fun start => Session.builtin Tree.host start.1 start.2⟩

def take (space : Workspace Tree) : Turn → Workspace Tree
  | .line index text => ((space.execute index text).map Prod.fst).getD space
  | .operation operation => { space with host := (space.host.apply operation).1 }

def run (space : Workspace Tree) (turns : List Turn) : Workspace Tree := turns.foldl take space

def reply? (space : Workspace Tree) (index : Nat) (turn : Turn) : Option (String × Reply Tree) :=
  (turn.own? index).bind fun text => (space.execute index text).map fun done => (text,done.2)

/-- The lines of one session in a run, each with its reply. -/
def transcript (space : Workspace Tree) (index : Nat) : List Turn → List (String × Reply Tree)
  | [] => []
  | turn :: rest => (space.reply? index turn).toList ++ (space.take turn).transcript index rest

theorem run_cons {turn : Turn} : space.run (turn :: turns) = (space.take turn).run turns := rfl

theorem run_append (first second : List Turn) : space.run (first ++ second) = (space.run first).run second :=
  List.foldl_append

/-! One turn -/

theorem take_line (found : space.sessions[index]? = some session) : space.take (.line index line) =
    ⟨(session.execute space.host line).host,space.sessions.set index (session.execute space.host line).session⟩ := by
  rw [take,execute,found]
  rfl

theorem session_take_other {other : Nat} (apart : other ≠ index) :
    (space.take (.line other line)).sessions[index]? = space.sessions[index]? := by
  cases found : space.sessions[other]? with
  | none => simp [take,execute,found]
  | some session =>
    rw [take_line found]
    exact List.getElem?_set_ne apart

/-- A session sees a turn as a line of its own, or not at all. -/
theorem take_cases (found : space.sessions[index]? = some session) (turn : Turn) :
    (∃ text, turn.own? index = some text ∧ space.reply? index turn = some (text,session.execute space.host text) ∧
      (space.take turn).sessions[index]? = some (session.execute space.host text).session) ∨
    turn.own? index = none ∧ space.reply? index turn = none ∧ (space.take turn).sessions[index]? = some session := by
  cases turn with
  | operation => exact .inr ⟨rfl,rfl,found⟩
  | line other text =>
    by_cases own : other = index
    · subst own
      refine .inl ⟨text,if_pos rfl,?_,?_⟩
      · rw [reply?,Turn.own?,if_pos rfl,Option.bind_some,execute,found]
        rfl
      · rw [take_line found]
        exact List.getElem?_set_self (List.getElem?_eq_some_iff.mp found).1
    · have passed : Turn.own? index (.line other text) = none := if_neg own
      refine .inr ⟨passed,?_,(session_take_other own).trans found⟩
      rw [reply?,passed,Option.bind_none]

/-! The tree of a run -/

def AllBuiltin (space : Workspace Tree) : Prop :=
  ∀ session ∈ space.sessions, session.catalog = (Builtin.catalog Tree.host).1

theorem allBuiltin_ofBuiltins (t : Tree) (starts : List (Handle × Preferences)) : (ofBuiltins t starts).AllBuiltin := by
  intro session member
  obtain ⟨start,_,rfl⟩ := List.mem_map.mp member
  rw [Session.builtin]

theorem AllBuiltin.take (builtin : space.AllBuiltin) (turn : Turn) : (space.take turn).AllBuiltin := by
  cases turn with
  | operation => exact builtin
  | line index text =>
    cases found : space.sessions[index]? with
    | none => simpa [Workspace.take,execute,found] using builtin
    | some session =>
      rw [take_line found]
      intro other member
      rcases List.mem_or_eq_of_mem_set member with before | rfl
      · exact builtin other before
      · exact builtin session (List.mem_of_getElem? found)

/-- Whoever takes the turn, the tree changes by operations only. -/
theorem AllBuiltin.host_take (builtin : space.AllBuiltin) (turn : Turn) :
    ∃ operations, (space.take turn).host = space.host.run operations := by
  cases turn with
  | operation operation => exact ⟨[operation],rfl⟩
  | line index text =>
    cases found : space.sessions[index]? with
    | none => exact ⟨[],by simp [Workspace.take,execute,found,Tree.run]⟩
    | some session =>
      rw [take_line found]
      exact Session.execute_run (builtin session (List.mem_of_getElem? found)) space.host text

theorem AllBuiltin.run (builtin : space.AllBuiltin) (turns : List Turn) : (space.run turns).AllBuiltin := by
  induction turns generalizing space with
  | nil => exact builtin
  | cons turn rest ih => exact ih (builtin.take turn)

theorem AllBuiltin.host_run (builtin : space.AllBuiltin) (turns : List Turn) :
    ∃ operations, (space.run turns).host = space.host.run operations := by
  induction turns generalizing space with
  | nil => exact ⟨[],rfl⟩
  | cons turn rest ih =>
    obtain ⟨first,taken⟩ := builtin.host_take turn
    obtain ⟨second,ran⟩ := ih (builtin.take turn)
    exact ⟨first ++ second,by rw [run_cons,ran,taken,Tree.run_append]⟩

end Workspace
end TreeConsole
