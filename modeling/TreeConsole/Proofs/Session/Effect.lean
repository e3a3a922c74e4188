import TreeConsole.Proofs.Catalog
import TreeConsole.Proofs.Focus.Run
import TreeConsole.Session

/-! What a line can change.
Every built-in command has one of a few effects, and the name that it was called by limits them: `cn` moves the
target, `cm` calls methods, `set` changes a preference, and the others leave everything as it is. Only a success
moves the target or changes a preference.
-/
namespace TreeConsole
variable {σ : Type} {host : Host σ} {w : World σ} {command : Option String}

inductive Notice.IsCall : Notice → Prop
  | intro {method result succeeded} : IsCall (.methodCalled method result succeeded)

/-- What a command can do to its world, by the name that it was called by. -/
inductive Effect (w : World σ) : Option String → World σ → Outcome → Prop
  | none {command outcome} : Effect w command w outcome
  | rejected {reason message} :
      Effect w (some "cn") (w.refocus (w.notify (.targetChangeFailed reason))) (.fail message)
  | selected {id message} :
      Effect w (some "cn") (w.refocus ({ w.toFocus with current := id }.notify (.targetChanged id))) (.succeed message)
  | called {s attempts outcome} (calls : ∀ notice ∈ attempts, notice.IsCall) :
      Effect w (some "cm") (w.refocus ⟨s,w.current,w.notices ++ attempts⟩) outcome
  | prompted {text message} :
      Effect w (some "set") { w with preferences := { w.preferences with prompt := text } } (.succeed message)
  | printing {enabled message} :
      Effect w (some "set") { w with preferences := { w.preferences with printResults := enabled } } (.succeed message)

/-- On every input a handler has an effect that its name allows. -/
def Handler.Affects (handler : Handler σ) (command : Option String) : Prop :=
  ∀ catalog inv w, Effect w command (handler catalog inv w).1 (handler catalog inv w).2

namespace Focus

theorem select_cases (host : Host σ) (f : Focus σ) (path : String) :
    (∃ reason, f.select host path = f.reject reason) ∨
      ∃ id, f.select host path = ({ f with current := id }.notify (.targetChanged id),.ok id) := by
  simp only [select]
  split
  · exact .inl ⟨_,rfl⟩
  · split
    · exact .inr ⟨_,rfl⟩
    · exact .inl ⟨_,rfl⟩

theorem Runs.attempts {f g : Focus σ} {results done : List Completed} {calls : List Call}
    {answer : Except ChainError (List Completed)} (run : Runs host f results calls done g answer) :
    ∃ s attempts, g = ⟨s,f.current,f.notices ++ attempts⟩ ∧ ∀ notice ∈ attempts, notice.IsCall := by
  have each : ∀ notice ∈ done.map succeeded, notice.IsCall := by
    intro notice member
    obtain ⟨step,_,rfl⟩ := List.mem_map.mp member
    exact .intro
  cases run with
  | @finished calls done s => exact ⟨s,done.map succeeded,rfl,each⟩
  | @stopped first c done s error next =>
    refine ⟨next,done.map succeeded ++ [.methodCalled c.method .null false],by simp,?_⟩
    intro notice member
    rcases List.mem_append.mp member with before | last
    · exact each notice before
    · obtain rfl := List.mem_singleton.mp last
      exact .intro

theorem runChain_attempts (host : Host σ) (f : Focus σ) (text : String) :
    ∃ s attempts, (f.runChain host text).1 = ⟨s,f.current,f.notices ++ attempts⟩ ∧
      ∀ notice ∈ attempts, notice.IsCall := by
  unfold runChain runChainWith
  cases Chain.read text with
  | error => exact ⟨f.host,[],by simp,by simp⟩
  | ok calls =>
    obtain ⟨done,g,answer,run,ran⟩ := runCalls_runs host (fun seen step => seen ++ [step]) f [] [] calls
    simp only [ran]
    exact run.attempts

end Focus

namespace Builtin

theorem help_affects : (help : Handler σ).Affects command := by
  intro catalog inv w
  unfold help
  split
  · exact .none
  · split <;> exact .none

theorem echo_affects : (echo : Handler σ).Affects command := fun _ _ _ => .none

theorem quit_affects : (quit : Handler σ).Affects command := fun _ _ _ => .none

theorem select_affects : (select host).Affects (some "cn") := by
  intro catalog inv w
  simp only [select]
  rcases Focus.select_cases host w.toFocus ((inv.argString? "path").getD "") with ⟨reason,refused⟩ | ⟨id,reached⟩
  · rw [refused]
    exact .rejected
  · rw [reached]
    exact .selected

theorem chain_affects : (chain host).Affects (some "cm") := by
  intro catalog inv w
  obtain ⟨s,attempts,left,calls⟩ := Focus.runChain_attempts host w.toFocus inv.line
  simp only [chain,left]
  split <;> exact .called calls

end Builtin

namespace Variables

theorem setPrompt_affects : (setPrompt : Handler σ).Affects (some "set") := by
  intro catalog inv w
  unfold setPrompt
  split
  · exact .none
  · exact .prompted

theorem setPrintResults_affects : (setPrintResults : Handler σ).Affects (some "set") := by
  intro catalog inv w
  unfold setPrintResults
  split
  · exact .none
  · exact .printing

theorem handler_affects {known : Variables σ}
    (each : ∀ {name entry}, known.get? name = some entry → entry.content.Affects command) :
    known.handler.Affects command := by
  intro catalog inv w
  unfold handler
  split
  · exact .none
  · split
    · exact .none
    next entry found =>
      split
      · exact each found _ _ _
      · exact .none

theorem builtin_affects : (builtin : Variables σ × List DefinitionError).1.handler.Affects (some "set") := by
  refine handler_affects fun found => ?_
  obtain ⟨first,member,content,_⟩ := declared_of_get? found
  rw [← content]
  rcases List.mem_pair.mp member with rfl | rfl
  · exact setPrompt_affects
  · exact setPrintResults_affects

end Variables

namespace Builtin

theorem commands_affect : ∀ first ∈ commands host, first.2.Affects (some (Text.trimmed first.1.name)) := by
  have select_name : Text.trimmed selectDeclaration.name = "cn" := by decide
  have chain_name : Text.trimmed chainDeclaration.name = "cm" := by decide
  have set_name : Text.trimmed Variables.declaration.name = "set" := by decide
  simp only [commands,List.forall_mem_cons,select_name,chain_name,set_name]
  exact ⟨help_affects,echo_affects,quit_affects,select_affects,chain_affects,Variables.builtin_affects,by simp⟩

-- The name may be an alias, and only a handler without effects can be reached through one.
theorem affects_of_quit {handler : Handler σ} (quits : handler.Affects (some "quit")) : handler.Affects command := by
  intro catalog inv w
  have effect := quits catalog inv w
  generalize (handler catalog inv w).1 = after,(handler catalog inv w).2 = outcome at effect ⊢
  generalize named : some "quit" = name at effect
  cases effect with
  | none => exact .none
  | _ => exact absurd named (by decide)

theorem find?_affects {name : String} {entry : Entry (Handler σ)}
    (found : (catalog host).1.find? name = some entry) : entry.content.Affects (some name) := by
  obtain ⟨first,member,content,named | quits⟩ := declared_of_find? found
  · rw [← content,← named]
    exact commands_affect first member
  · have affects := commands_affect first member
    rw [quits,content] at affects
    exact affects_of_quit affects

end Builtin

namespace Catalog
variable {catalog : Catalog (Handler σ)}

/-- A line either fails before any handler runs or runs the handler of its first token. -/
theorem executeLine_effect (each : ∀ {name entry}, catalog.find? name = some entry → entry.content.Affects (some name))
    (line : String) (w : World σ) :
    Effect w (Text.tokenize line).head? (catalog.executeLine line w).1 (catalog.executeLine line w).2 := by
  unfold executeLine route prepare
  cases Text.tokenize line with
  | nil => exact .none
  | cons name rest =>
    cases found : catalog.find? name with
    | none =>
      simp only [found]
      exact .none
    | some entry =>
      cases bound : entry.signature.bind rest with
      | error =>
        simp only [found,bound]
        exact .none
      | ok inv =>
        simp only [found,bound]
        exact each found _ _ _

end Catalog

namespace Session

def builtin (host : Host σ) (current : Handle) (preferences : Preferences) : Session σ :=
  ⟨(Builtin.catalog host).1,current,preferences⟩

end Session

/-- What a line may change, and which notices it may send, by the name of its command. -/
structure Reply.Framed (session : Session σ) (s : σ) (command : Option String) (reply : Reply σ) : Prop where
  catalog : reply.session.catalog = session.catalog
  host : reply.host = s ∨ command = some "cm"
  current : reply.session.current = session.current ∨ command = some "cn" ∧ reply.outcome.success
  preferences : reply.session.preferences = session.preferences ∨ command = some "set" ∧ reply.outcome.success
  failed : ¬ reply.outcome.success → reply.session = session ∧ (reply.host = s ∨ command = some "cm")
  silent : reply.notices = [] ∨ command = some "cn" ∨ command = some "cm"
  moved : command = some "cn" → reply.notices = [] ∨ reply.notices = [.targetChanged reply.session.current] ∨
    ∃ reason, reply.notices = [.targetChangeFailed reason]
  called : command = some "cm" → ∀ notice ∈ reply.notices, notice.IsCall

namespace Session

theorem framed_of_effect {session : Session σ} {s : σ} {after : World σ} {outcome : Outcome}
    (effect : Effect (session.world s) command after outcome) : Reply.Framed session s command
      ⟨after.host,{ session with current := after.current,preferences := after.preferences },after.notices,outcome⟩ := by
  -- Each effect says what the world has become, and every field is about that alone.
  cases effect with
  | none => constructor <;> simp [world]
  | rejected => constructor <;> simp [world,World.refocus,Focus.notify,Outcome.fail]
  | selected => constructor <;> simp [world,World.refocus,Focus.notify,Outcome.succeed]
  | called calls => constructor <;> simp [world,World.refocus]; exact calls
  | prompted => constructor <;> simp [world,Outcome.succeed]
  | printing => constructor <;> simp [world,Outcome.succeed]

theorem framed_of_affects {session : Session σ}
    (each : ∀ {name entry}, session.catalog.find? name = some entry → entry.content.Affects (some name))
    (s : σ) (line : String) : (session.execute s line).Framed session s (Text.tokenize line).head? := by
  unfold execute
  exact framed_of_effect (Catalog.executeLine_effect each line (session.world s))

/-- No line of a console reaches further than its command: the host changes by method calls only, the target by a
successful move and the preferences by a successful setting; what fails leaves the session as it was. -/
theorem execute_framed (host : Host σ) (s : σ) (current : Handle) (preferences : Preferences) (line : String) :
    ((builtin host current preferences).execute s line).Framed (builtin host current preferences) s
      (Text.tokenize line).head? := by
  refine framed_of_affects ?_ s line
  intro name entry found
  simp only [builtin] at found
  exact Builtin.find?_affects found

end Session
end TreeConsole
