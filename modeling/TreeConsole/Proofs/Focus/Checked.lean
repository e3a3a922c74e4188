import TreeConsole.Proofs.Chain.Segments
import TreeConsole.Proofs.Focus.Run
import TreeConsole.Proofs.Success

/-! Chains that are not started.
A chain is read to its end before its first call. When the text cannot be cut, when any of its segments is no call, or
when it has no segment, the host is asked for nothing and the focus stays as it was; every other chain is started.
-/
namespace TreeConsole
variable {text segment : String} {segments before after : List String} {error : ChainError}

def Call.WellFormed (segment : String) : Prop := ∃ call, Call.read segment = .ok call

namespace Chain
open Text

theorem read_malformed (bad : ¬ Call.WellFormed segment) : Call.read segment = .error (.malformed (trimmed segment)) := by
  unfold Call.read
  split
  next call found => exact absurd ⟨call,by rw [Call.read,found]⟩ bad
  next => rfl

theorem read_of_uncut (uncut : Chain.segments text = .error error) : Chain.read text = .error (.malformed (trimmed text)) := by
  rw [Chain.read,uncut,(segments_eq_error_iff.mp uncut).2]
  rfl

theorem read_of_empty (cut : Chain.segments text = .ok []) : Chain.read text = .error .empty := by
  rw [Chain.read,cut]
  rfl

theorem read_of_malformed (cut : Chain.segments text = .ok (before ++ segment :: after))
    (earlier : ∀ segment ∈ before, Call.WellFormed segment) (bad : ¬ Call.WellFormed segment) :
    Chain.read text = .error (.malformed segment) := by
  have stopped := @mapM_append_cons_error _ _ _ _ _ _ after _ earlier (read_malformed bad)
  rw [(segments_of_mem cut (by simp)).2.1] at stopped
  rw [Chain.read,cut]
  simp only [bind,Except.bind,stopped]

theorem read_of_wellFormed (cut : Chain.segments text = .ok segments) (some : segments ≠ [])
    (wellFormed : ∀ segment ∈ segments, Call.WellFormed segment) : ∃ call later, Chain.read text = .ok (call :: later) := by
  obtain ⟨calls,read,count⟩ := exists_mapM_ok wellFormed
  cases calls with
  | nil => exact absurd (List.length_eq_zero_iff.mp count.symm) some
  | cons call later =>
    refine ⟨call,later,?_⟩
    rw [Chain.read,cut]
    simp only [bind,Except.bind,read]
    rfl

end Chain

namespace Focus
variable {σ τ : Type} {host : Host σ} {onStep : τ → Completed → τ} {f g : Focus σ} {seen : τ}

/-- A chain that ends before its first call: host, target and notices are as they were, nothing was handed over, and a
host that writes down what it is asked has nothing to write. -/
structure Unstarted (host : Host σ) (onStep : τ → Completed → τ) (f : Focus σ) (seen : τ) (text : String)
    (error : ChainError) : Prop where
  unchanged : f.runChainWith host onStep seen text = (f,seen,.error error)
  unasked : f.recorded.runChainWith (recording host) onStep seen text = (f.recorded,seen,.error error)

theorem Unstarted.of_read (refused : Chain.read text = .error error) : Unstarted host onStep f seen text error := by
  constructor <;> rw [runChainWith,refused]

theorem Runs.notices {results done : List Completed} {call : Call} {later : List Call}
    {answer : Except ChainError (List Completed)} (run : Runs host f results (call :: later) done g answer) :
    ∃ first more, g.notices = f.notices ++ first :: more := by
  generalize same : call :: later = calls at run
  cases run with
  | finished all =>
    cases all with
    | nil => cases same
    | cons => exact ⟨_,_,rfl⟩
  | @stopped _ c done =>
    have some : done.map succeeded ++ [.methodCalled c.method .null false] ≠ [] := by simp
    obtain ⟨first,more,joined⟩ := List.exists_cons_of_ne_nil some
    exact ⟨first,more,by rw [List.append_assoc,joined]⟩

/-- Every text is checked before anything runs, whatever the host, the focus and the observer. A text that cannot be cut, a
segment that is no call, however late, and a text without segments are refused, and the chain is not started: the first
segment that is no call is the one complained about. Every other text is started, and tells of its first call. -/
theorem runChainWith_checked (host : Host σ) (onStep : τ → Completed → τ) (f : Focus σ) (seen : τ) (text : String) :
    (∀ error, Chain.segments text = .error error →
      Unstarted host onStep f seen text (.malformed (Text.trimmed text))) ∧
    ∀ segments, Chain.segments text = .ok segments →
      (segments = [] → Unstarted host onStep f seen text .empty) ∧
      (∀ late ∈ segments, ¬ Call.WellFormed late → ∃ before first after, segments = before ++ first :: after ∧
        (∀ segment ∈ before, Call.WellFormed segment) ∧ ¬ Call.WellFormed first ∧
          Unstarted host onStep f seen text (.malformed first)) ∧
      (segments ≠ [] → (∀ segment ∈ segments, Call.WellFormed segment) →
        ∃ first more, (f.runChainWith host onStep seen text).1.notices = f.notices ++ first :: more) := by
  refine ⟨fun error uncut => .of_read (Chain.read_of_uncut uncut),fun segments cut => ⟨?_,?_,?_⟩⟩
  · rintro rfl
    exact .of_read (Chain.read_of_empty cut)
  · intro late member bad
    obtain ⟨before,first,after,rfl,earlier,fails⟩ := exists_first_failing member bad
    exact ⟨before,first,after,rfl,earlier,fails,.of_read (Chain.read_of_malformed cut earlier fails)⟩
  · intro some wellFormed
    obtain ⟨call,later,read⟩ := Chain.read_of_wellFormed cut some wellFormed
    obtain ⟨done,g,answer,run,ran⟩ := runCalls_runs host onStep f seen [] (call :: later)
    rw [runChainWith,read]
    dsimp only
    rw [ran]
    exact run.notices

/-- Two calls that would change a tree are not made, for the third segment is no call. -/
theorem runChainWith_checked_late : Unstarted Tree.host (fun seen step => seen ++ [step.method])
    ⟨Tree.new,Tree.root,[]⟩ [] "add_child('a').rename('b').9" (.malformed "9") := by
  have bad : ¬ Call.WellFormed "9" := by
    rintro ⟨call,read⟩
    cases read
  obtain ⟨_,refused⟩ := runChainWith_checked Tree.host (fun seen step => seen ++ [step.method])
    ⟨Tree.new,Tree.root,[]⟩ [] "add_child('a').rename('b').9"
  obtain ⟨_,first,_,_,_,_,unstarted⟩ := (refused ["add_child('a')","rename('b')","9"] rfl).2.1 "9" (by simp) bad
  have answer := congrArg (fun result => result.2.2) unstarted.unchanged
  cases answer
  exact unstarted

end Focus
end TreeConsole
