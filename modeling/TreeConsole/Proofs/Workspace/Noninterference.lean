import TreeConsole.Proofs.Session.Preferences
import TreeConsole.Proofs.Workspace.Run
import Mathlib.Data.List.Forall2

/-! Preferences of one session among others.
The lines of one session, run by themselves over another tree, leave the preferences that they leave among the lines of
other sessions and the operations on the tree, whatever the targets are.
-/
namespace TreeConsole.Workspace
open TreeConsole.Tree
variable {space alone : Workspace Tree} {index : Nat} {session solo : Session Tree} {turns : List Turn}

def preferences? (space : Workspace Tree) (index : Nat) : Option Preferences :=
  space.sessions[index]?.map Session.preferences

/-- The same line in two runs, with the same outcome unless it selects or calls. -/
def Alike (entry other : String × Reply Tree) : Prop :=
  entry.1 = other.1 ∧ ((Text.tokenize entry.1).head? ≠ some "cn" → (Text.tokenize entry.1).head? ≠ some "cm" →
    entry.2.outcome = other.2.outcome)

def prompts (entries : List (String × Reply Tree)) : List String := entries.filterMap promptSet?

theorem run_alike (found : space.sessions[index]? = some session) (foundAlone : alone.sessions[0]? = some solo)
    (isBuiltin : session.catalog = (Builtin.catalog Tree.host).1)
    (soloBuiltin : solo.catalog = (Builtin.catalog Tree.host).1)
    (same : session.preferences = solo.preferences) (turns : List Turn) :
    (space.run turns).preferences? index = (alone.run ((ownLines index turns).map (.line 0))).preferences? 0 ∧
      List.Forall₂ Alike (space.transcript index turns) (alone.transcript 0 ((ownLines index turns).map (.line 0))) := by
  induction turns generalizing space alone session solo with
  | nil => exact ⟨by simp [ownLines,run,preferences?,found,foundAlone,same],.nil⟩
  | cons turn rest ih =>
    -- An own line is the next one of the run alone; another turn leaves this session and that run as they are.
    rcases take_cases found turn with ⟨text,own,answered,taken⟩ | ⟨foreign,unanswered,taken⟩
    · have passed : ownLines index (turn :: rest) = text :: ownLines index rest := List.filterMap_cons_some own
      rcases take_cases foundAlone (.line 0 text) with ⟨_,typed,answers,moved⟩ | ⟨refused,_,_⟩
      · cases typed
        obtain ⟨agree,ended⟩ := Session.execute_alike isBuiltin soloBuiltin same text
        obtain ⟨last,entries⟩ := ih taken moved isBuiltin soloBuiltin agree
        rw [passed,List.map_cons,run_cons,run_cons,transcript,transcript,answered,answers]
        exact ⟨last,.cons ⟨rfl,ended⟩ entries⟩
      · cases refused
    · have passed : ownLines index (turn :: rest) = ownLines index rest := List.filterMap_cons_none foreign
      rw [passed,run_cons,transcript,unanswered]
      exact ih taken foundAlone isBuiltin soloBuiltin same

theorem preferences_run (found : space.sessions[index]? = some session)
    (isBuiltin : session.catalog = (Builtin.catalog Tree.host).1) (turns : List Turn) :
    ∃ last, (space.run turns).preferences? index = some last ∧ last.startPath = session.preferences.startPath ∧
      last.prompt = (prompts (space.transcript index turns)).getLast?.getD session.preferences.prompt ∧
      ∀ text ∈ prompts (space.transcript index turns), 1 ≤ text.length ∧ text.length ≤ 32 := by
  induction turns generalizing space session with
  | nil => exact ⟨session.preferences,by simp [run,preferences?,found],rfl,rfl,by simp [transcript,prompts]⟩
  | cons turn rest ih =>
    rcases take_cases found turn with ⟨text,_,answered,taken⟩ | ⟨_,unanswered,taken⟩
    · obtain ⟨last,left,startPath,prompt,lengths⟩ := ih taken isBuiltin
      have prompted := Session.execute_prompted isBuiltin space.host text
      have sets : prompts (space.transcript index (turn :: rest)) =
          (promptSet? (text,session.execute space.host text)).toList ++
            prompts ((space.take turn).transcript index rest) := by
        rw [transcript,answered,prompts,List.filterMap_append]
        cases set : promptSet? (text,session.execute space.host text) <;> simp [set,prompts]
      refine ⟨last,left,startPath.trans (Session.execute_startPath isBuiltin space.host text),?_,?_⟩
      · rw [sets,prompt,prompted.prompt,List.getLast?_append]
        cases (prompts ((space.take turn).transcript index rest)).getLast? <;>
          cases promptSet? (text,session.execute space.host text) <;> rfl
      · intro set member
        rw [sets,List.mem_append,Option.mem_toList] at member
        exact member.elim (prompted.length set) (lengths set)
    · rw [run_cons,transcript,unanswered]
      exact ih taken isBuiltin

theorem session_ofBuiltins {t : Tree} {starts : List (Handle × Preferences)} {current : Handle}
    {preferences : Preferences} (isStart : starts[index]? = some (current,preferences)) :
    (ofBuiltins t starts).sessions[index]? = some (Session.builtin Tree.host current preferences) := by
  rw [ofBuiltins,List.getElem?_map,isStart]
  rfl

/-- Among any sessions, whatever their lines and the operations on their tree, the preferences of a session are those
that its own lines leave over a fresh tree, and its lines that neither select nor call end alike there. No line sets the
start path, and the prompt is the text of the last successful `set prompt`. -/
theorem preferences_noninterfering (operations : List Operation) (starts : List (Handle × Preferences)) (turns : List Turn)
    (index : Nat) (current target : Handle) (preferences : Preferences)
    (isStart : starts[index]? = some (current,preferences)) :
    ((ofBuiltins (new.run operations) starts).run turns).preferences? index =
        ((ofBuiltins new [(target,preferences)]).run ((ownLines index turns).map (.line 0))).preferences? 0 ∧
      List.Forall₂ Alike ((ofBuiltins (new.run operations) starts).transcript index turns)
        ((ofBuiltins new [(target,preferences)]).transcript 0 ((ownLines index turns).map (.line 0))) ∧
      ∃ last, ((ofBuiltins (new.run operations) starts).run turns).preferences? index = some last ∧
        last.startPath = preferences.startPath ∧
        last.prompt = (prompts ((ofBuiltins (new.run operations) starts).transcript index turns)).getLast?.getD
          preferences.prompt ∧
        ∀ text ∈ prompts ((ofBuiltins (new.run operations) starts).transcript index turns),
          1 ≤ text.length ∧ text.length ≤ 32 := by
  have found := @session_ofBuiltins index (new.run operations) starts current preferences isStart
  have foundAlone := @session_ofBuiltins 0 new [(target,preferences)] target preferences rfl
  have isBuiltin (id : Handle) : (Session.builtin Tree.host id preferences).catalog = (Builtin.catalog Tree.host).1 := by
    rw [Session.builtin]
  obtain ⟨same,alike⟩ := run_alike found foundAlone (isBuiltin current) (isBuiltin target) rfl turns
  exact ⟨same,alike,preferences_run found (isBuiltin current) turns⟩

/-- Two sessions at one node, which one of them frees. -/
def shared : Workspace Tree := ofBuiltins (new.run [.addChild root "a"]) [(1,.initial),(1,.initial)]

def mixed : List Turn :=
  [.line 0 "set prompt 'a >'",.line 1 "cm free",.line 1 "set prompt b",.line 0 "cm get_name",.line 0 "set prompt ''",
    .operation (.addChild root "c"),.line 0 "cn c"]

theorem preferences_noninterfering_mixed : (shared.run mixed).preferences? 0 =
    ((ofBuiltins new [(root,.initial)]).run ((ownLines 0 mixed).map (.line 0))).preferences? 0 ∧
      ∃ last, (shared.run mixed).preferences? 0 = some last ∧ last.prompt = "a >" := by
  obtain ⟨same,_,last,left,_,prompt,_⟩ := preferences_noninterfering [.addChild root "a"] [(1,.initial),(1,.initial)]
    mixed 0 1 root .initial rfl
  have texts : prompts (shared.transcript 0 mixed) = ["a >"] := by decide +kernel
  refine ⟨same,last,left,?_⟩
  rw [prompt]
  exact congrArg (fun texts => texts.getLast?.getD Preferences.initial.prompt) texts

end TreeConsole.Workspace
