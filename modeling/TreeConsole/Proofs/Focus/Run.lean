import TreeConsole.Focus
import TreeConsole.Tree.Method

/-! Chains from left to right.
A relation says which calls of a chain succeed, who receives them and how the first failure ends the run; the
runner is shown to follow it on every host, with its notices, hand-overs and answer in step. Over a host that
writes down what it is asked, the same run shows that no other call is ever made.
-/
namespace TreeConsole.Focus
variable {σ τ : Type} {host : Host σ} {current : Handle}

/-- Who receives a call: the value before it when that is an object alive at this moment, and else the target. -/
def recipient (host : Host σ) (s : σ) (current : Handle) : Option Value → Handle
  | some (.object id) => if host.isLive s id then id else current
  | _ => current

theorem receiver_eq_recipient (f : Focus σ) (previous : Option Value) :
    f.receiver host previous = recipient host f.host f.current previous := by
  cases previous with
  | none => rfl
  | some v =>
    cases v with
    | object id => cases live : host.isLive f.host id <;> simp [receiver,recipient,Value.asObject?,Option.filter,live]
    | _ => rfl

def lastValue (results : List Completed) : Option Value := results.getLast?.map Completed.value

/-- Calls that succeed one after the other, between two states of the host. -/
inductive Succeeds (host : Host σ) (current : Handle) : σ → Option Value → List Call → List Completed → σ → Prop
  | nil {s previous} : Succeeds host current s previous [] [] s
  | cons {s next last previous c v later done} (live : host.isLive s (recipient host s current previous))
      (has : host.hasMethod s (recipient host s current previous) c.method)
      (answered : host.invoke s (recipient host s current previous) c.method c.args = (next,.ok v))
      (rest : Succeeds host current next (some v) later done last) :
      Succeeds host current s previous (c :: later) (⟨c.method,v⟩ :: done) last

/-- The ways in which one call fails, and the state that the host is left in. -/
inductive Fails (host : Host σ) (current : Handle) : σ → Option Value → Call → ChainError → σ → Prop
  | dead {s previous c} (dead : ¬ host.isLive s (recipient host s current previous)) :
      Fails host current s previous c (.invalidInstance c.method) s
  | missing {s previous c} (live : host.isLive s (recipient host s current previous))
      (lacks : ¬ host.hasMethod s (recipient host s current previous) c.method) : Fails host current s previous c
        (.invalidMethod c.method (host.describe s (recipient host s current previous))) s
  | unknown {s next previous c method} (live : host.isLive s (recipient host s current previous))
      (has : host.hasMethod s (recipient host s current previous) c.method)
      (answered : host.invoke s (recipient host s current previous) c.method c.args = (next,.error (.notFound method))) :
      Fails host current s previous c
        (.invalidMethod c.method (host.describe next (recipient host s current previous))) next
  | refused {s next previous c error} (live : host.isLive s (recipient host s current previous))
      (has : host.hasMethod s (recipient host s current previous) c.method)
      (answered : host.invoke s (recipient host s current previous) c.method c.args = (next,.error error))
      (known : ∀ method, error ≠ .notFound method) :
      Fails host current s previous c (.invocation c.method error) next

def succeeded (done : Completed) : Notice := .methodCalled done.method done.value true

/-- A whole run after earlier results: what it completes, the focus it leaves and its answer. It ends at the end of
the calls or at the first that fails. -/
inductive Runs (host : Host σ) (f : Focus σ) (results : List Completed) :
    List Call → List Completed → Focus σ → Except ChainError (List Completed) → Prop
  | finished {calls done s} (all : Succeeds host f.current f.host (lastValue results) calls done s) :
      Runs host f results calls done ⟨s,f.current,f.notices ++ done.map succeeded⟩ (.ok (results ++ done))
  | stopped {first c done s error next} (later : List Call)
      (before : Succeeds host f.current f.host (lastValue results) first done s)
      (failed : Fails host f.current s (lastValue (results ++ done)) c error next) :
      Runs host f results (first ++ c :: later) done
        ⟨next,f.current,f.notices ++ done.map succeeded ++ [.methodCalled c.method .null false]⟩ (.error error)

/-- A call either succeeds or fails in one of the listed ways, and leaves one notice of it. -/
theorem call_cases (host : Host σ) (f : Focus σ) (previous : Option Value) (c : Call) :
    (∃ next v, host.isLive f.host (recipient host f.host f.current previous) ∧
      host.hasMethod f.host (recipient host f.host f.current previous) c.method ∧
      host.invoke f.host (recipient host f.host f.current previous) c.method c.args = (next,.ok v) ∧
      f.call host (f.receiver host previous) c =
        (⟨next,f.current,f.notices ++ [.methodCalled c.method v true]⟩,.ok v)) ∨
    ∃ next error, Fails host f.current f.host previous c error next ∧
      f.call host (f.receiver host previous) c =
        (⟨next,f.current,f.notices ++ [.methodCalled c.method .null false]⟩,.error error) := by
  rw [receiver_eq_recipient]
  unfold call
  cases live : host.isLive f.host (recipient host f.host f.current previous) with
  | false => exact .inr ⟨_,_,.dead (by simp [live]),rfl⟩
  | true =>
    cases has : host.hasMethod f.host (recipient host f.host f.current previous) c.method with
    | false => exact .inr ⟨_,_,.missing live (by simp [has]),rfl⟩
    | true =>
      cases answered : host.invoke f.host (recipient host f.host f.current previous) c.method c.args with
      | mk next result =>
        cases result with
        | ok v => exact .inl ⟨next,v,rfl,rfl,rfl,rfl⟩
        | error error =>
          cases error with
          | notFound method => exact .inr ⟨next,_,.unknown live has answered,rfl⟩
          | invalidArguments => exact .inr ⟨next,_,.refused live has answered (by simp),rfl⟩
          | failed => exact .inr ⟨next,_,.refused live has answered (by simp),rfl⟩

theorem lastValue_concat (results : List Completed) (done : Completed) :
    lastValue (results ++ [done]) = some done.value := by
  simp [lastValue]

theorem Runs.cons {f g : Focus σ} {results done : List Completed} {c : Call} {calls : List Call} {next : σ} {v : Value}
    {answer : Except ChainError (List Completed)}
    (live : host.isLive f.host (recipient host f.host f.current (lastValue results)))
    (has : host.hasMethod f.host (recipient host f.host f.current (lastValue results)) c.method)
    (answered : host.invoke f.host (recipient host f.host f.current (lastValue results)) c.method c.args = (next,.ok v))
    (rest : Runs host ⟨next,f.current,f.notices ++ [.methodCalled c.method v true]⟩ (results ++ [⟨c.method,v⟩]) calls
      done g answer) : Runs host f results (c :: calls) (⟨c.method,v⟩ :: done) g answer := by
  cases rest with
  | finished all =>
    rw [lastValue_concat] at all
    have whole := Runs.finished (.cons live has answered all)
    simpa [succeeded] using whole
  | stopped later before failed =>
    rw [lastValue_concat] at before
    rw [List.append_assoc] at failed
    have whole := Runs.stopped later (.cons live has answered before) failed
    simpa [succeeded] using whole

/-- The runner follows the relation, and hands over what is completed in order. -/
theorem runCalls_runs (host : Host σ) (onStep : τ → Completed → τ) (f : Focus σ) (seen : τ) (results : List Completed)
    (calls : List Call) : ∃ done g answer, Runs host f results calls done g answer ∧
      f.runCalls host onStep seen results calls = (g,done.foldl onStep seen,answer) := by
  induction calls generalizing f seen results with
  | nil => exact ⟨[],_,_,.finished .nil,by simp [runCalls]⟩
  | cons c later ih =>
    unfold runCalls
    rcases call_cases host f (lastValue results) c with ⟨next,v,live,has,answered,called⟩ | ⟨next,error,failed,called⟩
    · rw [lastValue] at called
      rw [called]
      obtain ⟨done,g,answer,rest,run⟩ := ih ⟨next,f.current,f.notices ++ [.methodCalled c.method v true]⟩
        (onStep seen ⟨c.method,v⟩) (results ++ [⟨c.method,v⟩])
      exact ⟨⟨c.method,v⟩ :: done,g,answer,.cons live has answered rest,run⟩
    · rw [lastValue] at called
      rw [called]
      have failed : Fails host f.current f.host (lastValue (results ++ [])) c error next := by simpa using failed
      exact ⟨[],_,_,.stopped later .nil failed,by simp⟩

/-! What the host is asked -/

structure Asked (σ : Type) where
  before : σ
  receiver : Handle
  call : Call

/-- A call that the host could be asked: its receiver was live and had the method. -/
def Asked.Allowed (host : Host σ) (asked : Asked σ) : Prop :=
  host.isLive asked.before asked.receiver ∧ host.hasMethod asked.before asked.receiver asked.call.method

/-- A host that also writes down every call that it is asked to make. -/
def recording (host : Host σ) : Host (σ × List (Asked σ)) where
  root := fun s => host.root s.1
  isLive := fun s => host.isLive s.1
  resolve := fun s => host.resolve s.1
  hasMethod := fun s => host.hasMethod s.1
  invoke := fun s id method args =>
    let (next,result) := host.invoke s.1 id method args
    ((next,s.2 ++ [⟨s.1,id,⟨method,args⟩⟩]),result)
  describe := fun s => host.describe s.1

def recorded (f : Focus σ) : Focus (σ × List (Asked σ)) := ⟨(f.host,[]),f.current,f.notices⟩

def unrecorded (f : Focus (σ × List (Asked σ))) : Focus σ := ⟨f.host.1,f.current,f.notices⟩

theorem recipient_recording (s : σ × List (Asked σ)) (previous : Option Value) :
    recipient (recording host) s current previous = recipient host s.1 current previous := rfl

theorem Succeeds.asked {s last : σ × List (Asked σ)} {previous : Option Value} {calls : List Call}
    {done : List Completed} (all : Succeeds (recording host) current s previous calls done last) :
    Succeeds host current s.1 previous calls done last.1 ∧ done.length = calls.length ∧
      ∃ asked, last.2 = s.2 ++ asked ∧ asked.map Asked.call = calls ∧ ∀ entry ∈ asked, entry.Allowed host := by
  induction all with
  | nil => exact ⟨.nil,rfl,[],by simp⟩
  | @cons s next last previous c v later done live has answered rest ih =>
    obtain ⟨succeeds,count,asked,record,same,allowed⟩ := ih
    rw [recipient_recording] at live has answered
    obtain ⟨reached,result⟩ := Prod.mk.inj answered
    have written : next.2 = s.2 ++ [⟨s.1,recipient host s.1 current previous,c⟩] := congrArg Prod.snd reached.symm
    have moved : (host.invoke s.1 (recipient host s.1 current previous) c.method c.args).1 = next.1 :=
      congrArg Prod.fst reached
    refine ⟨.cons live has (Prod.ext moved result) succeeds,by simp [count],
      ⟨s.1,recipient host s.1 current previous,c⟩ :: asked,?_,by simp [same],?_⟩
    · rw [record,written,List.append_assoc,List.singleton_append]
    · intro entry member
      rcases List.mem_cons.mp member with rfl | later
      · exact ⟨live,has⟩
      · exact allowed entry later

/-- A call that fails reaches the host at most once. -/
theorem Fails.asked {s next : σ × List (Asked σ)} {previous : Option Value} {c : Call} {error : ChainError}
    (failed : Fails (recording host) current s previous c error next) :
    Fails host current s.1 previous c error next.1 ∧
      ∃ asked, next.2 = s.2 ++ asked ∧ asked.map Asked.call <+: [c] ∧ ∀ entry ∈ asked, entry.Allowed host := by
  cases failed with
  | dead dead => exact ⟨.dead dead,[],by simp⟩
  | missing live lacks => exact ⟨.missing live lacks,[],by simp⟩
  | unknown live has answered =>
    obtain ⟨reached,result⟩ := Prod.mk.inj answered
    subst reached
    exact ⟨.unknown live has (Prod.ext rfl result),[⟨s.1,recipient host s.1 current previous,c⟩],rfl,by simp,
      by simpa using ⟨live,has⟩⟩
  | refused live has answered known =>
    obtain ⟨reached,result⟩ := Prod.mk.inj answered
    subst reached
    exact ⟨.refused live has (Prod.ext rfl result) known,[⟨s.1,recipient host s.1 current previous,c⟩],rfl,by simp,
      by simpa using ⟨live,has⟩⟩

theorem Runs.asked {f : Focus σ} {g : Focus (σ × List (Asked σ))} {calls : List Call} {done : List Completed}
    {answer : Except ChainError (List Completed)} (run : Runs (recording host) f.recorded [] calls done g answer) :
    Runs host f [] calls done g.unrecorded answer ∧ (∀ entry ∈ g.host.2, entry.Allowed host) ∧
      g.host.2.map Asked.call <+: calls ∧ done.length ≤ g.host.2.length ∧ g.host.2.length ≤ done.length + 1 := by
  cases run with
  | @finished calls done s all =>
    obtain ⟨succeeds,count,asked,record,same,allowed⟩ := all.asked
    obtain rfl : s.2 = asked := record
    have length := congrArg List.length same
    rw [List.length_map,← count] at length
    exact ⟨.finished succeeds,allowed,same ▸ List.prefix_refl _,Nat.le_of_eq length.symm,
      Nat.le_succ_of_le (Nat.le_of_eq length)⟩
  | @stopped first c done s error next later before failed =>
    obtain ⟨succeeds,count,asked,record,same,allowed⟩ := before.asked
    obtain ⟨fails,last,more,asks,allowedLast⟩ := failed.asked
    obtain rfl : s.2 = asked := record
    have length := congrArg List.length same
    have bound := asks.length_le
    rw [List.length_map] at length bound
    have bound : last.length ≤ 1 := bound
    refine ⟨.stopped later succeeds fails,?_,?_,?_,?_⟩ <;> simp only [more]
    · intro entry member
      exact (List.mem_append.mp member).elim (allowed entry) (allowedLast entry)
    · rw [List.map_append,same]
      exact (List.prefix_append_right_inj first).mpr (asks.trans ⟨later,rfl⟩)
    · rw [List.length_append]; omega
    · rw [List.length_append]; omega

theorem call_recording (f : Focus (σ × List (Asked σ))) (receiver : Handle) (c : Call) :
    ((f.call (recording host) receiver c).1.unrecorded,(f.call (recording host) receiver c).2) =
      f.unrecorded.call host receiver c := by
  cases live : host.isLive f.host.1 receiver with
  | false => simp [call,recording,live,unrecorded,fail,notify]
  | true =>
    cases has : host.hasMethod f.host.1 receiver c.method with
    | false => simp [call,recording,live,has,unrecorded,fail,notify]
    | true =>
      cases answered : host.invoke f.host.1 receiver c.method c.args with
      | mk next result =>
        cases result with
        | ok v => simp [call,recording,live,has,answered,unrecorded,notify]
        | error error => cases error <;> simp [call,recording,live,has,answered,unrecorded,fail,notify]

theorem runCalls_recording (onStep : τ → Completed → τ) (f : Focus (σ × List (Asked σ))) (seen : τ)
    (results : List Completed) (calls : List Call) :
    ((f.runCalls (recording host) onStep seen results calls).1.unrecorded,
        (f.runCalls (recording host) onStep seen results calls).2) =
      f.unrecorded.runCalls host onStep seen results calls := by
  induction calls generalizing f seen results with
  | nil => rfl
  | cons c later ih =>
    have same (previous : Option Value) : f.unrecorded.receiver host previous = f.receiver (recording host) previous := rfl
    unfold runCalls
    rw [same,← call_recording]
    cases called : f.call (recording host) (f.receiver (recording host) (results.getLast?.map Completed.value)) c with
    | mk g result =>
      cases result with
      | ok v => exact ih g (onStep seen ⟨c.method,v⟩) (results ++ [⟨c.method,v⟩])
      | error error => rfl

/-- Every well-formed chain runs from left to right: its calls succeed one after the other up to the first that
fails, each received as the relation says; what is handed over, the notices and the answer are those of the calls
that succeeded and of that failure; and the host is asked for no other call. -/
theorem runChainWith_leftToRight (host : Host σ) (onStep : τ → Completed → τ) (f : Focus σ) (seen : τ) (text : String)
    (calls : List Call) (read : Chain.read text = .ok calls) :
    ∃ done g answer asked, Runs host f [] calls done g answer ∧ g.current = f.current ∧
      f.runChainWith host onStep seen text = (g,done.foldl onStep seen,answer) ∧
      f.recorded.runChainWith (recording host) onStep seen text =
        (⟨(g.host,asked),g.current,g.notices⟩,done.foldl onStep seen,answer) ∧
      (∀ entry ∈ asked, host.isLive entry.before entry.receiver ∧
        host.hasMethod entry.before entry.receiver entry.call.method) ∧
      asked.map Asked.call <+: calls ∧ done.length ≤ asked.length ∧ asked.length ≤ done.length + 1 := by
  obtain ⟨done,g,answer,run,ran⟩ := runCalls_runs (recording host) onStep f.recorded seen [] calls
  obtain ⟨plain,allowed,order,atLeast,atMost⟩ := run.asked
  have projected := @runCalls_recording σ τ host onStep f.recorded seen [] calls
  rw [ran] at projected
  refine ⟨done,g.unrecorded,answer,g.host.2,plain,?_,?_,?_,allowed,order,atLeast,atMost⟩
  · cases run <;> rfl
  · rw [runChainWith,read]
    exact projected.symm
  · rw [runChainWith,read]
    exact ran

/-- On a tree of nodes the second call frees what the first one made, the third goes to the target, which has no such
method, and the fourth is never made. -/
theorem runChainWith_freed :
    Chain.read "add_child('a').free.fly.get_name" =
      .ok [⟨"add_child",[.string "a"]⟩,⟨"free",[]⟩,⟨"fly",[]⟩,⟨"get_name",[]⟩] ∧
    ∃ done g, Runs Tree.host ⟨Tree.new,Tree.root,[]⟩ []
        [⟨"add_child",[.string "a"]⟩,⟨"free",[]⟩,⟨"fly",[]⟩,⟨"get_name",[]⟩] done g
        (.error (.invalidMethod "fly" "/root")) ∧
      done.foldl (fun seen step => seen ++ [step.method]) [] = ["add_child","free"] := by
  refine ⟨rfl,?_⟩
  obtain ⟨done,g,answer,_,run,_,ran,_⟩ := runChainWith_leftToRight Tree.host (fun seen step => seen ++ [step.method])
    ⟨Tree.new,Tree.root,[]⟩ [] "add_child('a').free.fly.get_name" _ rfl
  have handed := congrArg (fun result => result.2.1) ran
  have answered := congrArg (fun result => result.2.2) ran
  refine ⟨done,g,?_,?_⟩
  · rw [show answer = .error (.invalidMethod "fly" "/root") from answered.symm.trans rfl] at run
    exact run
  · exact handed.symm.trans rfl

end TreeConsole.Focus
