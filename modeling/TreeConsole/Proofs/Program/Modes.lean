import TreeConsole.Proofs.Program.Input

/-! Two ways to give lines.
Lines that are given as commands and lines that are typed in are executed alike: in order, each on what the one before
it left, up to the first that asks to exit. The two differ in their exit code and in the prompts alone.
-/
namespace TreeConsole
variable {console : Console} {line : String} {lines executed other : List String} {format : OutputFormat}

namespace Console

/-! All of the lines -/

def after (console : Console) (lines : List String) : Console :=
  lines.foldl (fun console line => (console.execute line).1) console

def outcomes (console : Console) : List String → List Outcome
  | [] => []
  | line :: rest => (console.execute line).2 :: (console.execute line).1.outcomes rest

/-- What is printed where each line is asked for: the prompt as it is then, and the outcome. -/
def dialogue (format : OutputFormat) (console : Console) : List String → Transcript
  | [] => []
  | line :: rest =>
    .out console.session.preferences.prompt :: (console.execute line).2.print format ++
      (console.execute line).1.dialogue format rest

/-- The prompt for one more line, unless a line has asked to exit. -/
def lastPrompt (console : Console) (lines : List String) : Transcript :=
  if (console.outcomes lines).any Outcome.isExit then [] else [.out (console.after lines).session.preferences.prompt]

theorem outcomes_append (console : Console) (lines more : List String) :
    console.outcomes (lines ++ more) = console.outcomes lines ++ (console.after lines).outcomes more := by
  induction lines generalizing console with
  | nil => rfl
  | cons line rest ih => rw [List.cons_append,outcomes,ih,outcomes,List.cons_append,after,after,List.foldl_cons]

theorem outcomes_ne_nil (some : lines ≠ []) : console.outcomes lines ≠ [] := by
  cases lines with
  | nil => exact absurd rfl some
  | cons line rest => exact List.cons_ne_nil _ _

/-! The lines before the exit -/

/-- The lines up to the first that asks to exit, or all of them. -/
structure Stops (console : Console) (lines executed : List String) : Prop where
  begins : executed <+: lines
  goes : ∀ outcome ∈ (console.outcomes executed).dropLast, outcome.isExit = false
  ends : executed = lines ∨ ∃ outcome, (console.outcomes executed).getLast? = some outcome ∧ outcome.isExit = true

theorem Stops.none : console.Stops [] [] := by
  refine ⟨List.prefix_refl [],?_,.inl rfl⟩
  intro outcome member
  cases member

theorem Stops.exit (exits : (console.execute line).2.isExit = true) : console.Stops (line :: lines) [line] := by
  refine ⟨List.prefix_append [line] lines,?_,.inr ⟨_,rfl,exits⟩⟩
  intro outcome member
  cases member

theorem Stops.next (goes : (console.execute line).2.isExit = false)
    (stops : (console.execute line).1.Stops lines executed) : console.Stops (line :: lines) (line :: executed) := by
  obtain ⟨begins,before,ends⟩ := stops
  refine ⟨List.cons_prefix_cons.mpr ⟨rfl,begins⟩,?_,?_⟩
  · intro outcome member
    rw [outcomes] at member
    cases later : (console.execute line).1.outcomes executed with
    | nil =>
      rw [later] at member
      cases member
    | cons second more =>
      rw [later,List.dropLast_cons_cons] at member
      rcases List.mem_cons.mp member with rfl | member
      · exact goes
      · exact before outcome (later ▸ member)
  · rcases ends with rfl | ⟨outcome,last,exits⟩
    · exact .inl rfl
    · refine .inr ⟨outcome,?_,exits⟩
      rw [outcomes,List.getLast?_cons,last,Option.getD_some]

theorem Stops.eq_of_begins (stops : console.Stops lines executed) (longer : console.Stops lines other)
    (begins : executed <+: other) : executed = other := by
  obtain ⟨more,rfl⟩ := begins
  rcases stops.ends with rfl | ⟨outcome,last,exits⟩
  · exact (List.prefix_append _ _).eq_of_length_le longer.begins.length_le
  · by_contra different
    -- Were there more lines, the exit would not be the last of them.
    have some : more ≠ [] := fun nothing => different (by rw [nothing,List.append_nil])
    have goes : outcome.isExit = false := by
      refine longer.goes outcome ?_
      rw [outcomes_append,List.dropLast_append_of_ne_nil (outcomes_ne_nil some)]
      exact List.mem_append_left _ (List.mem_of_getLast? last)
    rw [goes] at exits
    cases exits

theorem Stops.unique (first : console.Stops lines executed) (second : console.Stops lines other) :
    executed = other := by
  rcases List.prefix_or_prefix_of_prefix first.begins second.begins with shorter | longer
  · exact first.eq_of_begins second shorter
  · exact (second.eq_of_begins first longer).symm

/-- Both ways at once: the lines up to the exit are executed, and the others make no difference. -/
theorem execute_lines (typable : ∀ line ∈ lines, Typable line) (format : OutputFormat) (console : Console) :
    ∃ executed, console.Stops lines executed ∧
      console.runCommands format lines = (console.after executed,console.outcomes executed,
        (console.outcomes executed).flatMap (·.print format)) ∧
      console.readLines format (lines.map some) = (console.after executed,console.outcomes executed,
        console.dialogue format executed ++ console.lastPrompt executed,true) := by
  induction lines generalizing console with
  | nil => exact ⟨[],.none,rfl,rfl⟩
  | cons line rest ih =>
    have seen := (typable line List.mem_cons_self).seen
    cases exits : (console.execute line).2.isExit with
    | true =>
      refine ⟨[line],.exit exits,?_,?_⟩
      · simp [runCommands,exits,after,outcomes]
      · rw [List.map_cons,readLines,turn,seen]
        simp [exits,after,outcomes,dialogue,lastPrompt,promptText]
    | false =>
      obtain ⟨executed,stops,batch,interactive⟩ :=
        ih (fun other member => typable other (List.mem_cons_of_mem line member)) (console.execute line).1
      refine ⟨line :: executed,.next exits stops,?_,?_⟩
      · simp [runCommands,exits,batch,after,outcomes]
      · rw [List.map_cons,readLines,turn,seen]
        simp [exits,interactive,after,outcomes,dialogue,lastPrompt,promptText]

end Console

namespace Program

/-- Given as commands or typed in, the same lines are executed and end alike, in the same state. The exit code of the
commands tells whether one of them failed. -/
theorem batch_interactive (arguments : Arguments) {path : String} {file : File} {text : String} (input : ByteArray)
    (started : prepare path file = .ok console) (given : lines ≠ []) (typable : ∀ line ∈ lines, Typable line)
    (typed : Typed lines text) :
    ∃ executed, (∀ part, console.Stops lines part ↔ part = executed) ∧
      console.runCommands arguments.output lines = (console.after executed,console.outcomes executed,
        (console.outcomes executed).flatMap (·.print arguments.output)) ∧
      console.readLines arguments.output (inputLines text.toUTF8) = (console.after executed,console.outcomes executed,
        console.dialogue arguments.output executed ++ console.lastPrompt executed,true) ∧
      run { arguments with commands := lines } path file input =
        ⟨if (console.outcomes executed).all Outcome.success then 0 else 1,
          (console.outcomes executed).flatMap (·.print arguments.output)⟩ ∧
      run { arguments with commands := [] } path file text.toUTF8 =
        ⟨0,console.dialogue arguments.output executed ++ console.lastPrompt executed⟩ := by
  obtain ⟨executed,stops,batched,answered⟩ := console.execute_lines typable arguments.output
  rw [← inputLines_typed typed typable] at answered
  refine ⟨executed,fun part => ⟨fun other => other.unique stops,fun same => same ▸ stops⟩,batched,answered,?_,?_⟩
  · have isBatch : ({ arguments with commands := lines } : Arguments).isBatch = true := by
      simp [Arguments.isBatch,given]
    simp only [run,started,isBatch,if_true,batch,batched]
  · have isInteractive : ({ arguments with commands := [] } : Arguments).isBatch = false := rfl
    simp only [run,started,isInteractive,interactive,answered]
    rfl

/-- The prompt that was set is shown at once, and the line after `quit` is not executed. -/
theorem batch_interactive_prompted :
    run ⟨none,["set prompt $","fly","quit","echo late"],.text,false⟩ "" .missing .empty =
        ⟨1,[.out "prompt = $\n",.err "Unknown command: fly. Type help for available commands.\n",
          .out "Goodbye.\n"]⟩ ∧
      run ⟨none,[],.text,false⟩ "" .missing "set prompt $\nfly\r\nquit\necho late".toUTF8 =
        ⟨0,[.out "> ",.out "prompt = $\n",.out "$",
          .err "Unknown command: fly. Type help for available commands.\n",.out "$",.out "Goodbye.\n"]⟩ := by
  obtain ⟨console,started⟩ : ∃ console, prepare "" .missing = .ok console := ⟨_,rfl⟩
  have typable : ∀ line ∈ ["set prompt $","fly","quit","echo late"], Typable line := by
    intro line member
    simp only [List.mem_cons,List.not_mem_nil,or_false] at member
    rcases member with rfl | rfl | rfl | rfl
    all_goals exact ⟨by decide,by decide,by decide⟩
  have typed : Typed ["set prompt $","fly","quit","echo late"] "set prompt $\nfly\r\nquit\necho late" :=
    .ended (.inl rfl) (.ended (.inr rfl) (.ended (.inl rfl) .unended))
  obtain ⟨executed,only,_,_,batch,interactive⟩ :=
    batch_interactive ⟨none,[],.text,false⟩ .empty started (by decide) typable typed
  cases started
  obtain rfl : ["set prompt $","fly","quit"] = executed := by
    refine (only _).mp ⟨⟨["echo late"],rfl⟩,?_,.inr ⟨⟨true,"Goodbye.",some .exit⟩,?_,rfl⟩⟩
    · decide +kernel
    · decide +kernel
  rw [batch,interactive]
  constructor
  · exact congrArg₂ RunResult.mk (by decide +kernel) (by decide +kernel)
  · exact congrArg₂ RunResult.mk rfl (by decide +kernel)

end Program
end TreeConsole
