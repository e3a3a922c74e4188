import TreeConsole.Proofs.Chain.Blank
import TreeConsole.Proofs.Session.Command
import TreeConsole.Proofs.Session.Line

/-! Lines that call a chain.
A line of `cm` does what its chain does, and reports it: neither the cutting of the line into tokens nor their binding
can refuse a chain or change it, whatever quotes, blanks, dashes and equals signs stand in it.
-/
namespace TreeConsole
variable {σ τ : Type} {host : Host σ} {text : String}

namespace Focus

/-- What is done with the results that are handed over has no influence on the run. -/
theorem runCalls_handed (host : Host σ) (f : Focus σ) (results : List Completed) (calls : List Call) :
    ∃ (after : Focus σ) (done : List Completed) (answer : Except ChainError (List Completed)),
      ∀ {τ : Type} (onStep : τ → Completed → τ) (seen : τ),
        f.runCalls host onStep seen results calls = (after,done.foldl onStep seen,answer) := by
  induction calls generalizing f results with
  | nil => exact ⟨f,[],.ok results,fun _ _ => rfl⟩
  | cons c later ih =>
    cases called : f.call host (f.receiver host (results.getLast?.map Completed.value)) c with
    | mk g result =>
      cases result with
      | error error => exact ⟨g,[],.error error,fun onStep seen => by simp only [runCalls,called,List.foldl_nil]⟩
      | ok v =>
        obtain ⟨after,done,answer,rest⟩ := ih g (results ++ [⟨c.method,v⟩])
        refine ⟨after,⟨c.method,v⟩ :: done,answer,fun onStep seen => ?_⟩
        simp only [runCalls,called,rest,List.foldl_cons]

theorem foldl_collected (done : List Completed) : done.foldl (fun seen step => seen ++ [step]) [] = done := by
  rw [List.foldl_append_eq_append,List.nil_append]
  exact List.flatMap_singleton' done

theorem runChainWith_eq (host : Host σ) (f : Focus σ) (text : String) (onStep : τ → Completed → τ) (seen : τ) :
    f.runChainWith host onStep seen text =
      ((f.runChain host text).1,(f.runChain host text).2.completed.foldl onStep seen,(f.runChain host text).2.answer) := by
  unfold runChain runChainWith
  cases Chain.read text with
  | error error => rfl
  | ok calls =>
    obtain ⟨after,done,answer,handed⟩ := runCalls_handed host f [] calls
    simp only [handed,foldl_collected]

theorem runChain_trimmed (f : Focus σ) (text : String) : f.runChain host (Text.trimmed text) = f.runChain host text := by
  simp only [runChain,runChainWith,Chain.read_trimmed]

end Focus

theorem Builtin.chainOutcome_eq (host : Host σ) (preferences : Preferences) (s : σ) (run : ChainRun) :
    chainOutcome host preferences s run = ⟨run.answer.isOk,"\n".intercalate
      ((if preferences.printResults then run.completed.map (completedLine host s) else []) ++
        (run.failure.map ChainError.message).toList),none⟩ := by
  cases answer : run.answer with
  | ok results =>
    simp only [chainOutcome,ChainRun.failure,answer,Option.map_none,Option.toList_none,List.append_nil]
    rfl
  | error error =>
    simp only [chainOutcome,ChainRun.failure,answer,Option.map_some,Option.toList_some]
    rfl

namespace Session
variable {session : Session σ} {s : σ}

theorem bare_chain : Catalog.Bare "cm" := by
  have letters : "cm".toList = ['c','m'] := rfl
  refine ⟨by decide,?_,?_⟩
  all_goals
    rw [letters,List.forall_mem_cons,List.forall_mem_singleton]
    decide

theorem execute_command_chain (isBuiltin : session.catalog = (Builtin.catalog host).1)
    (some : ∃ c ∈ text.toList, Text.isBlank c = false) {f : Focus σ} {run : ChainRun}
    (ran : (session.world s).toFocus.runChain host text = (f,run)) :
    session.execute s ("cm " ++ text) = ⟨f.host,{ session with current := f.current },f.notices,
      Builtin.chainOutcome host session.preferences f.host run⟩ := by
  have typed : Text.trimmed text = Catalog.remainder ("cm " ++ text) := (bare_chain.remainder text).symm
  have tokens : Text.tokenize ("cm " ++ text) = "cm" :: Text.tokenize text := bare_chain.tokenize text
  obtain ⟨token,more,behind⟩ := List.exists_cons_of_ne_nil (Text.tokenize_ne_nil some)
  rw [behind] at tokens
  rw [← Focus.runChain_trimmed,typed] at ran
  exact execute_chain isBuiltin tokens ran

/-- The line `cm` with any text behind it that is not blank is the chain of this text. The host, the notices and the
target are left as the chain leaves them, with whatever is done for each completed call; the line succeeds when the
chain does, and its message has a line for each completed call, if those are to be printed, and one for a failure. -/
theorem execute_transparent (host : Host σ) (s : σ) (current : Handle) (preferences : Preferences) (text : String)
    (some : ∃ c ∈ text.toList, Text.isBlank c = false) :
    ∃ (after : Focus σ) (run : ChainRun),
      (∀ {τ : Type} (onStep : τ → Completed → τ) (seen : τ),
        Focus.runChainWith host onStep ⟨s,current,[]⟩ seen text = (after,run.completed.foldl onStep seen,run.answer)) ∧
      after.current = current ∧
      (builtin host current preferences).execute s ("cm " ++ text) =
        ⟨after.host,builtin host current preferences,after.notices,
          ⟨run.answer.isOk,"\n".intercalate
            ((if preferences.printResults then
                run.completed.map fun step => step.method ++ ": " ++ host.render after.host step.value
              else []) ++ (run.failure.map ChainError.message).toList),none⟩⟩ := by
  cases ran : Focus.runChain host ⟨s,current,[]⟩ text with
  | mk after run =>
    have handed {τ : Type} (onStep : τ → Completed → τ) (seen : τ) :=
      Focus.runChainWith_eq host ⟨s,current,[]⟩ text onStep seen
    rw [ran] at handed
    obtain ⟨reached,attempts,left,_⟩ := Focus.runChain_attempts host ⟨s,current,[]⟩ text
    rw [ran] at left
    have stays : after.current = current := congrArg Focus.current left
    refine ⟨after,run,handed,stays,?_⟩
    have isBuiltin : (builtin host current preferences).catalog = (Builtin.catalog host).1 := by rw [builtin]
    rw [execute_command_chain isBuiltin some ran,Builtin.chainOutcome_eq,stays]
    have shown : Builtin.completedLine host after.host =
        fun step => step.method ++ ": " ++ host.render after.host step.value := rfl
    rw [shown]
    simp only [builtin]
    rfl

/-- The chain gets its quotes and blanks as they were typed: it makes a node whose name has two spaces, and then fails. -/
theorem execute_transparent_quoted :
    ((builtin Tree.host Tree.root .initial).execute Tree.new "cm  add_child( 'a  b' ) . get_name.fly").outcome =
      .fail "add_child: /root/a  b\nget_name: a  b\nmethod 'fly' not found on /root" := by
  obtain ⟨after,⟨done,answer⟩,ran,_,executed⟩ := execute_transparent Tree.host Tree.new Tree.root .initial
    " add_child( 'a  b' ) . get_name.fly" ⟨'a',by decide,by decide⟩
  have handed := ran (fun seen step => seen ++ [step]) []
  rw [Focus.foldl_collected] at handed
  obtain rfl := congrArg (fun result => result.1) handed
  obtain rfl := congrArg (fun result => result.2.1) handed
  obtain rfl := congrArg (fun result => result.2.2) handed
  exact (congrArg Reply.outcome executed).trans (by decide +kernel)

end Session
end TreeConsole
