import TreeConsole.Proofs.Session.Command

/-! What a line does to the preferences.
A line that neither selects nor calls sees of its world the preferences alone, and no line changes the preferences by
what else there is. The prompt is the text of a successful `set prompt`, and no line sets the start path.
-/
namespace TreeConsole
variable {σ : Type} {host : Host σ} {w other after : World σ} {command : Option String} {outcome : Outcome}
variable {name line : String} {entry : Entry (Handler σ)}

/-! Two worlds with equal preferences -/

/-- On worlds that agree on the preferences, a handler leaves equal preferences and ends alike. -/
def Handler.Uniform (handler : Handler σ) : Prop :=
  ∀ catalog inv w other, w.preferences = other.preferences →
    (handler catalog inv w).1.preferences = (handler catalog inv other).1.preferences ∧
      (handler catalog inv w).2 = (handler catalog inv other).2

namespace Variables

theorem setPrompt_uniform : (setPrompt : Handler σ).Uniform := by
  intro catalog inv w other same
  unfold setPrompt
  split
  · exact ⟨same,rfl⟩
  · exact ⟨by rw [same],rfl⟩

theorem setPrintResults_uniform : (setPrintResults : Handler σ).Uniform := by
  intro catalog inv w other same
  unfold setPrintResults
  split
  · exact ⟨same,rfl⟩
  · exact ⟨by rw [same],rfl⟩

theorem handler_uniform {known : Variables σ}
    (each : ∀ {name entry}, known.get? name = some entry → entry.content.Uniform) : known.handler.Uniform := by
  intro catalog inv w other same
  unfold handler
  split
  · exact ⟨same,rfl⟩
  · split
    · exact ⟨same,rfl⟩
    next entry found =>
      split
      · exact each found _ _ _ _ same
      · exact ⟨same,rfl⟩

theorem builtin_uniform : (builtin : Variables σ × List DefinitionError).1.handler.Uniform := by
  refine handler_uniform fun found => ?_
  obtain ⟨first,member,content,_⟩ := declared_of_get? found
  rw [← content]
  rcases List.mem_pair.mp member with rfl | rfl
  · exact setPrompt_uniform
  · exact setPrintResults_uniform

end Variables

namespace Builtin

theorem help_uniform : (help : Handler σ).Uniform := by
  intro catalog inv w other same
  unfold help
  split
  · exact ⟨same,rfl⟩
  · split <;> exact ⟨same,rfl⟩

theorem echo_uniform : (echo : Handler σ).Uniform := fun _ _ _ _ same => ⟨same,rfl⟩

theorem quit_uniform : (quit : Handler σ).Uniform := fun _ _ _ _ same => ⟨same,rfl⟩

theorem commands_uniform : ∀ first ∈ commands host,
    Text.trimmed first.1.name = "cn" ∨ Text.trimmed first.1.name = "cm" ∨ first.2.Uniform := by
  simp only [commands,List.forall_mem_cons]
  refine ⟨?_,?_,?_,?_,?_,?_,by simp⟩
  · exact .inr (.inr help_uniform)
  · exact .inr (.inr echo_uniform)
  · exact .inr (.inr quit_uniform)
  · exact .inl (by decide)
  · exact .inr (.inl (by decide))
  · exact .inr (.inr Variables.builtin_uniform)

theorem find?_uniform (found : (catalog host).1.find? name = some entry) (notSelect : name ≠ "cn")
    (notChain : name ≠ "cm") : entry.content.Uniform := by
  obtain ⟨first,member,content,named⟩ := declared_of_find? found
  rcases commands_uniform first member with select | chain | uniform
  · rw [select] at named
    exact absurd named (by simp [Ne.symm notSelect])
  · rw [chain] at named
    exact absurd named (by simp [Ne.symm notChain])
  · exact content ▸ uniform

end Builtin

theorem Catalog.executeLine_uniform {catalog : Catalog (Handler σ)} (same : w.preferences = other.preferences)
    (each : ∀ {name entry}, (Text.tokenize line).head? = some name → catalog.find? name = some entry →
      entry.content.Uniform) :
    (catalog.executeLine line w).1.preferences = (catalog.executeLine line other).1.preferences ∧
      (catalog.executeLine line w).2 = (catalog.executeLine line other).2 := by
  unfold executeLine route prepare
  cases tokens : Text.tokenize line with
  | nil => exact ⟨same,rfl⟩
  | cons name rest =>
    cases found : catalog.find? name with
    | none =>
      simp only [found,and_true]
      exact same
    | some entry =>
      cases bound : entry.signature.bind rest with
      | error =>
        simp only [found,bound,and_true]
        exact same
      | ok inv =>
        simp only [found,bound]
        exact each (by rw [tokens]; rfl) found _ _ _ _ same

/-! What a line can do to the preferences -/

theorem Effect.startPath (effect : Effect w command after outcome) :
    after.preferences.startPath = w.preferences.startPath := by
  cases effect <;> rfl

theorem Session.execute_startPath {session : Session σ} (isBuiltin : session.catalog = (Builtin.catalog host).1) (s : σ)
    (line : String) : (session.execute s line).session.preferences.startPath = session.preferences.startPath := by
  exact (Catalog.executeLine_effect (affects_of_builtin isBuiltin) line (session.world s)).startPath

namespace Variables

theorem prompt_of_other {catalog : Catalog Unit} {inv : Invocation} (found : builtin.1.get? name = some entry)
    (notPrompt : name ≠ "prompt") : (entry.content catalog inv w).1.preferences.prompt = w.preferences.prompt := by
  obtain ⟨first,member,content,named⟩ := declared_of_get? found
  have isPrompt : Text.trimmed promptDeclaration.name = "prompt" := by decide
  rw [← content]
  rcases List.mem_pair.mp member with rfl | rfl
  · rw [isPrompt] at named
    exact absurd named.symm notPrompt
  · dsimp only
    unfold setPrintResults
    split <;> rfl

/-- `set` sets the prompt to the token behind `prompt`, if that has the length of a prompt, and else leaves it. -/
theorem handler_prompt (catalog : Catalog Unit) (inv : Invocation) (w : World σ) :
    ((builtin.1.handler catalog inv w).1.preferences.prompt = w.preferences.prompt ∧
      ((builtin.1.handler catalog inv w).2.success = true → ∀ text more, inv.raw ≠ "prompt" :: text :: more)) ∨
    ∃ text more, inv.raw = "prompt" :: text :: more ∧ 1 ≤ text.length ∧ text.length ≤ 32 ∧
      (builtin.1.handler catalog inv w).1.preferences.prompt = text ∧
        (builtin.1.handler catalog inv w).2.success = true := by
  unfold handler
  split
  next none => exact .inl ⟨rfl,fun success => by cases success⟩
  next key rest typed =>
    split
    next => exact .inl ⟨rfl,fun success => by cases success⟩
    next entry found =>
      split
      next bound fits =>
        by_cases isPrompt : key = "prompt"
        · subst isPrompt
          obtain rfl := Option.some.inj (get?_prompt.symm.trans found)
          obtain ⟨text,more,rfl,isText,low,high⟩ := bind_prompt fits
          refine .inr ⟨text,more,typed,low,high,?_⟩
          simp [setPrompt,isText,Outcome.succeed]
        · refine .inl ⟨?_,fun _ text more set => ?_⟩
          · exact prompt_of_other found isPrompt
          · exact isPrompt (List.cons.inj (typed.symm.trans set)).1
      next => exact .inl ⟨rfl,fun success => by cases success⟩

end Variables

namespace Session

/-- Sessions with equal preferences leave equal preferences, and end alike where nothing is selected or called. -/
theorem execute_alike {session solo : Session σ} {s t : σ} (isBuiltin : session.catalog = (Builtin.catalog host).1)
    (soloBuiltin : solo.catalog = (Builtin.catalog host).1) (same : session.preferences = solo.preferences)
    (line : String) :
    (session.execute s line).session.preferences = (solo.execute t line).session.preferences ∧
      ((Text.tokenize line).head? ≠ some "cn" → (Text.tokenize line).head? ≠ some "cm" →
        (session.execute s line).outcome = (solo.execute t line).outcome) := by
  by_cases reaching : (Text.tokenize line).head? = some "cn" ∨ (Text.tokenize line).head? = some "cm"
  · have notSet : (Text.tokenize line).head? ≠ some "set" := by
      intro isSet
      rw [isSet] at reaching
      revert reaching
      decide
    have kept {session : Session σ} {s : σ} (isBuiltin : session.catalog = (Builtin.catalog host).1) :
        (session.execute s line).session.preferences = session.preferences :=
      (framed_of_builtin isBuiltin s line).preferences.resolve_right fun set => notSet set.1
    refine ⟨(kept isBuiltin).trans (same.trans (kept soloBuiltin).symm),fun notSelect notChain => ?_⟩
    exact absurd reaching (not_or.mpr ⟨notSelect,notChain⟩)
  · obtain ⟨notSelect,notChain⟩ := not_or.mp reaching
    have uniform {name : String} {entry : Entry (Handler σ)} (head : (Text.tokenize line).head? = some name)
        (found : session.catalog.find? name = some entry) : entry.content.Uniform := by
      rw [isBuiltin] at found
      refine Builtin.find?_uniform found ?_ ?_
      · rintro rfl
        exact notSelect head
      · rintro rfl
        exact notChain head
    obtain ⟨left,ended⟩ := @Catalog.executeLine_uniform _ (session.world s) (solo.world t) line _ same uniform
    unfold execute
    rw [soloBuiltin,← isBuiltin]
    exact ⟨left,fun _ _ => ended⟩

end Session

/-! Prompts -/

def promptText? : List String → Option String
  | "set" :: "prompt" :: text :: _ => some text
  | _ => none

theorem promptText?_eq_some_iff {tokens : List String} {text : String} :
    promptText? tokens = some text ↔ ∃ more, tokens = "set" :: "prompt" :: text :: more := by
  constructor
  · intro found
    unfold promptText? at found
    split at found
    next =>
      cases found
      exact ⟨_,rfl⟩
    next => cases found
  · rintro ⟨more,rfl⟩
    rfl

def promptSet? (entry : String × Reply σ) : Option String :=
  if entry.2.outcome.success then promptText? (Text.tokenize entry.1) else none

/-- A line changes the prompt to the text that it set, if it set one. -/
structure Reply.Prompted (session : Session σ) (line : String) (reply : Reply σ) : Prop where
  prompt : reply.session.preferences.prompt = (promptSet? (line,reply)).getD session.preferences.prompt
  length : ∀ text ∈ promptSet? (line,reply), 1 ≤ text.length ∧ text.length ≤ 32

namespace Reply.Prompted
variable {session : Session σ} {reply : Reply σ} {text : String}

theorem of_kept (kept : reply.session.preferences.prompt = session.preferences.prompt)
    (other : reply.outcome.success = true → promptText? (Text.tokenize line) = none) : reply.Prompted session line := by
  have nothing : promptSet? (line,reply) = none := ite_eq_right_iff.mpr other
  constructor
  · rw [nothing]
    exact kept
  · rw [nothing]
    intro text member
    cases member

theorem of_set (success : reply.outcome.success = true) (isText : promptText? (Text.tokenize line) = some text)
    (set : reply.session.preferences.prompt = text) (length : 1 ≤ text.length ∧ text.length ≤ 32) :
    reply.Prompted session line := by
  have found : promptSet? (line,reply) = some text := (if_pos success).trans isText
  constructor
  · rw [found]
    exact set
  · rw [found]
    intro other member
    cases member
    exact length

end Reply.Prompted

namespace Session
variable {session : Session σ} {s : σ}

theorem execute_set (isBuiltin : session.catalog = (Builtin.catalog host).1) {rest : List String}
    (tokens : Text.tokenize line = "set" :: rest) : (∃ message, session.execute s line = ⟨s,session,[],.fail message⟩) ∨
      ∃ inv w outcome, inv.raw = rest ∧
        Variables.builtin.1.handler session.catalog.listing inv (session.world s) = (w,outcome) ∧ session.execute s line =
          ⟨w.host,{ session with current := w.current,preferences := w.preferences },w.notices,outcome⟩ := by
  cases bound : Variables.setSignature.bind rest with
  | error error => exact .inl ⟨_,execute_unbound tokens (find?_set isBuiltin) bound⟩
  | ok inv =>
    cases handled : Variables.builtin.1.handler session.catalog.listing { inv with line := Catalog.remainder line }
      (session.world s) with
    | mk w outcome =>
      refine .inr ⟨_,w,outcome,?_,handled,?_⟩
      · exact (Signature.raw_of_bind bound : inv.raw = rest)
      · rw [execute,Catalog.executeLine_eq tokens (find?_set isBuiltin) bound]
        dsimp only
        rw [handled]

theorem execute_prompted (isBuiltin : session.catalog = (Builtin.catalog host).1) (s : σ) (line : String) :
    (session.execute s line).Prompted session line := by
  by_cases isSet : (Text.tokenize line).head? = some "set"
  · obtain ⟨rest,tokens⟩ := List.head?_eq_some_iff.mp isSet
    rcases execute_set isBuiltin tokens with ⟨message,failed⟩ | ⟨inv,w,outcome,typed,handled,executed⟩
    · rw [failed]
      exact .of_kept rfl fun success => by cases success
    · have prompted := Variables.handler_prompt session.catalog.listing inv (session.world s)
      rw [handled,typed] at prompted
      rw [executed]
      rcases prompted with ⟨kept,other⟩ | ⟨text,more,rfl,low,high,set,success⟩
      · refine .of_kept kept fun success => ?_
        rw [Option.eq_none_iff_forall_ne_some]
        intro text found
        obtain ⟨more,same⟩ := promptText?_eq_some_iff.mp found
        exact other success text more (List.cons.inj (tokens.symm.trans same)).2
      · exact .of_set success (promptText?_eq_some_iff.mpr ⟨more,tokens⟩) set ⟨low,high⟩
  · have kept := (framed_of_builtin isBuiltin s line).preferences.resolve_right fun set => isSet set.1
    refine .of_kept (congrArg Preferences.prompt kept) fun _ => ?_
    rw [Option.eq_none_iff_forall_ne_some]
    intro text found
    obtain ⟨more,tokens⟩ := promptText?_eq_some_iff.mp found
    exact isSet (by rw [tokens]; rfl)

end Session
end TreeConsole
