import TreeConsole.Proofs.Focus.Destination
import TreeConsole.Proofs.Session.Line
import TreeConsole.Proofs.Workspace.Run

/-! Sessions whose target was freed.
A freed node never comes back, so the target stays dead until the session itself selects another one. Until then its
method calls fail before the tree is asked, and its paths are followed from the root.
-/
namespace TreeConsole
variable {t : Tree} {id start : Handle} {path : String} {session : Session Tree} {f : Focus Tree}

/-! Paths from a dead target -/

namespace Tree

theorem WellFormed.select_of_resolve (wellFormed : f.host.WellFormed) (dead : ¬ f.host.isLive f.current)
    (found : f.host.resolve root path = some id) :
    f.select Tree.host path = ({ f with current := id }.notify (.targetChanged id),.ok id) := by
  have written : Text.trimmed path ≠ "" := by
    intro nothing
    rw [resolve_of_blank nothing] at found
    cases found
  have leads : Leads f.host f.current path id :=
    ⟨written,.inr ⟨fun live => absurd live dead,resolve_trimmed.trans found⟩⟩
  exact (wellFormed.select_selects path).of_leads leads

theorem WellFormed.select_of_unresolved (wellFormed : f.host.WellFormed) (dead : ¬ f.host.isLive f.current)
    (missing : f.host.resolve root path = none) : ∃ reason, f.select Tree.host path = f.reject reason := by
  refine ⟨_,(wellFormed.select_selects path).of_nowhere fun id leads => ?_⟩
  rcases leads.found with ⟨live,_⟩ | ⟨_,found⟩
  · exact dead live
  · rw [resolve_trimmed,missing] at found
    cases found

end Tree

/-! Calls on a dead target -/

theorem Focus.runChain_of_dead {σ : Type} {host : Host σ} {f : Focus σ} {text : String} {call : Call}
    {later : List Call} (dead : ¬ host.isLive f.host f.current) (read : Chain.read text = .ok (call :: later)) :
    f.runChain host text =
      (f.notify (.methodCalled call.method .null false),⟨[],.error (.invalidInstance call.method)⟩) := by
  have isDead : host.isLive f.host f.current = false := by simpa using dead
  have first : f.receiver host none = f.current := rfl
  have refused : f.call host f.current call =
      (f.notify (.methodCalled call.method .null false),.error (.invalidInstance call.method)) := by
    rw [Focus.call,isDead]
    rfl
  simp [runChain,runChainWith,read,runCalls,first,refused]

theorem Builtin.chainOutcome_of_first {σ : Type} {host : Host σ} {preferences : Preferences} {s : σ}
    {error : ChainError} : chainOutcome host preferences s ⟨[],.error error⟩ = .fail error.message := by
  simp [chainOutcome]

namespace Session
open TreeConsole.Tree
variable {line : String} {more : List String}

/-- What a session does whose target is dead: a chain fails at its first call, and a path is one from the root. -/
structure Stranded (session : Session Tree) (t : Tree) : Prop where
  called : ∀ line call later, (Text.tokenize line).head? = some "cm" →
    Chain.read (Catalog.remainder line) = .ok (call :: later) → session.execute t line =
      ⟨t,session,[.methodCalled call.method .null false],.fail (ChainError.invalidInstance call.method).message⟩
  moved : ∀ line path more, Text.tokenize line = "cn" :: path :: more →
    ((session.execute t line).outcome.success = true ↔ ∃ id, t.resolve root path = some id) ∧
      ∀ id, t.resolve root path = some id → session.execute t line =
        ⟨t,{ session with current := id },[.targetChanged id],.succeed ("Target: " ++ t.path id)⟩

theorem chain_of_dead (isBuiltin : session.catalog = (Builtin.catalog Tree.host).1) (dead : ¬ t.isLive session.current)
    {call : Call} {later : List Call} (head : (Text.tokenize line).head? = some "cm")
    (read : Chain.read (Catalog.remainder line) = .ok (call :: later)) : session.execute t line =
      ⟨t,session,[.methodCalled call.method .null false],.fail (ChainError.invalidInstance call.method).message⟩ := by
  have typed : Catalog.remainder line ≠ "" := by
    intro nothing
    rw [nothing] at read
    cases read
  obtain ⟨token,more,tokens⟩ := Catalog.exists_argument head (by decide) typed
  have ran := @Focus.runChain_of_dead _ Tree.host (session.world t).toFocus _ _ _ dead read
  rw [execute_chain isBuiltin tokens ran,Builtin.chainOutcome_of_first]
  rfl

theorem execute_unselected (isBuiltin : session.catalog = (Builtin.catalog Tree.host).1) {reason : Rejection}
    (tokens : Text.tokenize line = "cn" :: path :: more)
    (refused : (session.world t).toFocus.select Tree.host path = (f,.error reason)) :
    (session.execute t line).outcome = .fail (path ++ ": " ++ reason.message) := by
  obtain ⟨inv,bound,isPath⟩ := Builtin.bind_select path more
  rw [execute,Catalog.executeLine_eq tokens (find?_select isBuiltin) bound]
  simp only [Builtin.select,isPath,Option.getD_some,refused]

theorem path_of_dead (isBuiltin : session.catalog = (Builtin.catalog Tree.host).1) (wellFormed : t.WellFormed)
    (dead : ¬ t.isLive session.current) (tokens : Text.tokenize line = "cn" :: path :: more) :
    (∀ id, t.resolve root path = some id → session.execute t line =
      ⟨t,{ session with current := id },[.targetChanged id],.succeed ("Target: " ++ t.path id)⟩) ∧
    (t.resolve root path = none → (session.execute t line).outcome.success = false) := by
  constructor
  · intro id found
    have moved := @WellFormed.select_of_resolve id path (session.world t).toFocus wellFormed dead found
    have named : Tree.host.describe t id = t.path id := if_pos (wellFormed.isLive_of_resolve found)
    rw [execute_select (find?_select isBuiltin) tokens moved,← named]
    rfl
  · intro missing
    obtain ⟨reason,refused⟩ := @WellFormed.select_of_unresolved path (session.world t).toFocus wellFormed dead missing
    rw [execute_unselected isBuiltin tokens refused]
    rfl

theorem stranded_of_dead (isBuiltin : session.catalog = (Builtin.catalog Tree.host).1) (wellFormed : t.WellFormed)
    (dead : ¬ t.isLive session.current) : session.Stranded t where
  called _ _ _ head read := chain_of_dead isBuiltin dead head read
  moved line path more tokens := by
    obtain ⟨resolved,unresolved⟩ := path_of_dead isBuiltin wellFormed dead tokens
    refine ⟨?_,resolved⟩
    constructor
    · intro success
      cases found : t.resolve root path with
      | some id => exact ⟨id,rfl⟩
      | none =>
        rw [unresolved found] at success
        cases success
    · rintro ⟨id,found⟩
      rw [resolved id found]
      rfl

end Session

/-! Runs past a dead target -/

namespace Workspace
open TreeConsole.Tree
variable {space : Workspace Tree} {index : Nat} {turns : List Turn}

theorem AllBuiltin.current_take (builtin : space.AllBuiltin) (found : space.sessions[index]? = some session)
    (turn : Turn) (unmoved : ∀ entry ∈ space.reply? index turn,
      (Text.tokenize entry.1).head? = some "cn" → ¬ entry.2.outcome.success) :
    ∃ later, (space.take turn).sessions[index]? = some later ∧ later.current = session.current := by
  rcases take_cases found turn with ⟨text,_,answered,taken⟩ | ⟨_,_,taken⟩
  · refine ⟨_,taken,?_⟩
    have stays := unmoved _ answered
    have framed := Session.framed_of_builtin (builtin session (List.mem_of_getElem? found)) space.host text
    rcases framed.current with same | ⟨isSelect,success⟩
    · exact same
    · exact absurd success (stays isSelect)
  · exact ⟨session,taken,rfl⟩

theorem AllBuiltin.freed_run (builtin : space.AllBuiltin) (found : space.sessions[index]? = some session)
    (freed : space.host.Freed session.current) (unmoved : ∀ entry ∈ space.transcript index turns,
      (Text.tokenize entry.1).head? = some "cn" → ¬ entry.2.outcome.success) :
    ∃ later, (space.run turns).sessions[index]? = some later ∧ later.current = session.current ∧
      (space.run turns).host.Freed later.current := by
  induction turns generalizing space session with
  | nil => exact ⟨session,found,rfl,freed⟩
  | cons turn rest ih =>
    obtain ⟨next,taken,same⟩ := builtin.current_take found turn fun entry member =>
      unmoved entry (List.mem_append_left _ (Option.mem_toList.mpr member))
    obtain ⟨operations,reached⟩ := builtin.host_take turn
    have still : (space.take turn).host.Freed next.current := by
      rw [same,reached]
      exact freed.run operations
    obtain ⟨later,ran,kept,dead⟩ := ih (builtin.take turn) taken still fun entry member =>
      unmoved entry (List.mem_append_right _ member)
    exact ⟨later,ran,kept.trans same,dead⟩

/-- However the turns of all sessions and the operations on the tree are mixed: once the target of a session was freed,
it stays dead until a line of this session selects another, and all the while the session is stranded. -/
theorem dead_target (operations : List Operation) (starts : List (Handle × Preferences)) (before after : List Turn)
    (index : Nat) (session : Session Tree)
    (isSession : ((ofBuiltins (new.run operations) starts).run before).sessions[index]? = some session)
    (freed : ((ofBuiltins (new.run operations) starts).run before).host.Freed session.current)
    (unmoved : ∀ entry ∈ ((ofBuiltins (new.run operations) starts).run before).transcript index after,
      (Text.tokenize entry.1).head? = some "cn" → ¬ entry.2.outcome.success) :
    ∃ later, ((ofBuiltins (new.run operations) starts).run (before ++ after)).sessions[index]? = some later ∧
      later.current = session.current ∧
      later.Stranded ((ofBuiltins (new.run operations) starts).run (before ++ after)).host := by
  have start := allBuiltin_ofBuiltins (new.run operations) starts
  have builtin := start.run before
  obtain ⟨later,found,same,dead⟩ := builtin.freed_run isSession freed unmoved
  rw [run_append]
  refine ⟨later,found,same,?_⟩
  -- The tree is still one that operations reach from a fresh one, so that its paths lead to live nodes.
  obtain ⟨changes,reached⟩ := start.host_run (before ++ after)
  have wellFormed : ((ofBuiltins (new.run operations) starts).run (before ++ after)).host.WellFormed := by
    rw [reached]
    exact Tree.run_append operations changes ▸ wellFormed_run (operations ++ changes)
  rw [run_append] at wellFormed
  exact Session.stranded_of_dead (builtin.run after later (List.mem_of_getElem? found)) wellFormed dead.2

/-- A node that is freed from its parent, where another session stands, and then a new node at the old path. -/
def deserted : Workspace Tree :=
  (ofBuiltins (new.run [.addChild root "a",.addChild 1 "b"]) [(2,.initial),(1,.initial)]).run [.line 1 "cm free"]

def resettled : List Turn := [.operation (.addChild root "a"),.line 0 "cm get_name"]

theorem dead_target_deserted : ∃ later, (deserted.run resettled).sessions[0]? = some later ∧ later.current = 2 ∧
    (later.execute (deserted.run resettled).host "cm rename('x').free").outcome =
      .fail "cannot call 'rename': the target is no longer valid" ∧
    (later.execute (deserted.run resettled).host "cn a").session.current = 3 := by
  have isSession : deserted.sessions[0]? = some (Session.builtin Tree.host 2 .initial) := by
    rw [deserted,run_cons,run,List.foldl_nil,session_take_other (by decide : 1 ≠ 0)]
    rfl
  have freed : deserted.host.Freed 2 := ⟨by decide +kernel,by decide +kernel⟩
  have unmoved : ∀ entry ∈ deserted.transcript 0 resettled,
      (Text.tokenize entry.1).head? = some "cn" → ¬ entry.2.outcome.success := by decide +kernel
  obtain ⟨later,found,same,stranded⟩ := dead_target [.addChild root "a",.addChild 1 "b"] [(2,.initial),(1,.initial)]
    [.line 1 "cm free"] resettled 0 (Session.builtin Tree.host 2 .initial) isSession freed unmoved
  have reached : (deserted.run resettled).host.resolve root "a" = some 3 := by decide +kernel
  refine ⟨later,found,same,?_,?_⟩
  · have failed := stranded.called "cm rename('x').free" ⟨"rename",[.string "x"]⟩ [⟨"free",[]⟩] (by decide +kernel) rfl
    exact congrArg Reply.outcome failed
  · have moved := (stranded.moved "cn a" "a" [] (by decide +kernel)).2 3 reached
    exact congrArg (fun reply => reply.session.current) moved

end Workspace
end TreeConsole
