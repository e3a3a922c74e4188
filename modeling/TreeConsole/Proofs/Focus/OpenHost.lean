import TreeConsole.Focus
import TreeConsole.Proofs.Tree.Update

/-! Methods asked for and methods called.
A tree decides twice which methods there are: by the names that a live node announces, and by the look-up of a call.
The two agree, so that a host which claims every method of a tree and leaves it to the call to deny one runs the same
chains; only the node is named in another way.
-/
namespace TreeConsole
namespace Tree
variable {t : Tree} {id parent : Handle} {node : Node} {name method : String} {known : Method} {args : List Value}

theorem contains_names : Method.names.contains method = (Method.ofName? method).isSome := by
  have listed : Method.names = Method.all.map Method.name := rfl
  apply Bool.eq_iff_iff.mpr
  simp [listed,Method.ofName?]

/-! Which calls are denied -/

/-- A result that does not deny that there is such a method. -/
def Known {α : Type} (result : Except HostError α) : Prop := ¬ ∃ method, result = .error (.notFound method)

theorem Known.ok {α : Type} {a : α} : Known (.ok a) := by
  rintro ⟨method,denied⟩
  cases denied

theorem Known.invalid {α : Type} {reason : String} :
    Known (.error (.invalidArguments method reason) : Except HostError α) := by
  rintro ⟨method,denied⟩
  cases denied

theorem Known.failed {α : Type} {reason : String} : Known (.error (.failed reason) : Except HostError α) := by
  rintro ⟨method,denied⟩
  cases denied

theorem stringArgument_known (v : Value) : Known (stringArgument known v) := by
  unfold stringArgument
  split
  · exact .ok
  · exact .invalid

theorem indexArgument_known (v : Value) : Known (indexArgument known v) := by
  unfold indexArgument
  split
  · exact .ok
  · exact .invalid

theorem childAt_known (index : Int64) : Known (childAt node index) := by
  simp only [childAt]
  split
  · exact .failed
  · split
    · exact .ok
    · exact .failed

theorem checkName_known {above self : Option Handle} : Known (t.checkName method above name self) := by
  unfold checkName
  split
  · exact .invalid
  · split
    · split
      · exact .ok
      · exact .failed
    · exact .ok

/-- Never fails for want of a method. -/
def Update.Known {α : Type} (u : Update α) : Prop := ∀ t method after, u t ≠ .error (.notFound method) after

namespace Update
variable {α β : Type} {u : Update α} {next : α → Update β} {result : Except HostError α}

theorem Known.bind (first : Known u) (later : ∀ a, Known (next a)) : Known (u >>= next) := by
  intro t method after denied
  rcases bind_eq_error_iff.mp denied with denied | ⟨a,between,_,denied⟩
  · exact first t method after denied
  · exact later a between method after denied

theorem Unfailing.isKnown (unfailing : Unfailing u) : Known u := fun t _ after denied => unfailing t _ after denied

theorem get_known : Known get := fun _ _ _ denied => nomatch denied

theorem require_known {holds : Bool} {reason : String} : Known (require holds (.failed reason)) := by
  cases holds with
  | false => exact fun _ _ _ denied => nomatch denied
  | true => exact (unfailing_pure ()).isKnown

theorem ofExcept_known (known : Tree.Known result) : Known (ofExcept result) := by
  cases result with
  | ok a => exact (unfailing_pure a).isKnown
  | error error =>
    intro t method after denied
    cases denied
    exact known ⟨method,rfl⟩

theorem addChild_known : Known (addChild parent name) := by
  refine get_known.bind fun _ => require_known.bind fun _ => (ofExcept_known checkName_known).bind fun _ => ?_
  exact ((unfailing_change _).bind fun _ => (unfailing_edit _ _).bind fun _ => unfailing_pure _).isKnown

theorem free_known : Known (free id) := by
  refine get_known.bind fun _ => require_known.bind fun _ => require_known.bind fun _ => ?_
  exact ((unfailing_change _).bind fun _ => unfailing_change _).isKnown

theorem rename_known : Known (rename id node name) :=
  get_known.bind fun _ => (ofExcept_known checkName_known).bind fun _ => (unfailing_edit _ _).isKnown

theorem perform_known : Known (perform id node known args) := by
  have string (v : Value) := ofExcept_known (@stringArgument_known known v)
  have pure' (v : Value) := (unfailing_pure v).isKnown
  cases known,args using Method.applied_cases with
  | getName | getChildCount | getChildren | getParent => exact pure' _
  | getPath => exact get_known.bind fun _ => pure' _
  | getChild => exact (ofExcept_known (indexArgument_known _)).bind fun _ => ofExcept_known (childAt_known _)
  | find => exact (string _).bind fun _ => get_known.bind fun _ => pure' _
  | addChild => exact (string _).bind fun _ => addChild_known.bind fun _ => pure' _
  | rename => exact (string _).bind fun _ => rename_known.bind fun _ => pure' _
  | setMeta => exact (string _).bind fun _ => (unfailing_edit _ _).isKnown.bind fun _ => pure' _
  | getMeta => exact (string _).bind fun _ => pure' _
  | free => exact free_known.bind fun _ => pure' _
  | wrongly _ _ wrong =>
    rw [perform_wrongly wrong]
    exact fun _ _ _ denied => nomatch denied

end Update

theorem invoke_known (found : t.liveNode? id = some node) (isKnown : Method.ofName? method = some known) :
    Known (t.invoke id method args).2 := by
  rintro ⟨missing,denied⟩
  have called : Update.call id method args t = .error (.notFound missing) (t.invoke id method args).1 :=
    Update.outcome_eq_error_iff.mp (Prod.ext rfl denied)
  rw [Update.call_eq found isKnown] at called
  exact Update.perform_known t missing _ called

theorem invoke_unknown (live : t.isLive id) (unknown : Method.ofName? method = none) (args : List Value) :
    t.invoke id method args = (t,.error (.notFound method)) := by
  obtain ⟨node,found⟩ := Option.isSome_iff_exists.mp live
  rw [invoke,Update.outcome_eq_error_iff,Update.call,Update.get_bind,found,unknown]
  rfl

theorem hasMethod_eq : host.hasMethod t id method = (t.isLive id && (Method.ofName? method).isSome) := by
  rw [← contains_names]
  rfl

/-- A node has a method exactly when it is live and no call of the method is denied. -/
theorem hasMethod_iff (args : List Value) : host.hasMethod t id method = true ↔
    t.isLive id ∧ Known (host.invoke t id method args).2 := by
  rw [hasMethod_eq,Bool.and_eq_true]
  apply and_congr_right
  intro live
  obtain ⟨node,found⟩ := Option.isSome_iff_exists.mp live
  change _ ↔ Known (t.invoke id method args).2
  cases lookup : Method.ofName? method with
  | some known => exact iff_of_true rfl (invoke_known found lookup)
  | none =>
    rw [invoke_unknown live lookup]
    exact iff_of_false Bool.false_ne_true fun known => known ⟨method,rfl⟩

end Tree

/-! Chains over both hosts -/

namespace Focus
open TreeConsole.Tree
variable {τ α : Type}

/-- Two answers that are the same, or that deny the same method to the same node, each naming the node in its way. -/
inductive Alike (t : Tree) : Except ChainError α → Except ChainError α → Prop
  | same {answer} : Alike t answer answer
  | denied {method id} :
      Alike t (.error (.invalidMethod method (t.describe id))) (.error (.invalidMethod method (Value.handleText id)))

/-- One call leaves the same tree and the same notices, whether the method is asked for before it or not. -/
theorem call_open (f : Focus Tree) (receiver : Handle) (c : Call) :
    (f.call openHost receiver c).1 = (f.call Tree.host receiver c).1 ∧
      Alike (f.call Tree.host receiver c).1.host (f.call Tree.host receiver c).2 (f.call openHost receiver c).2 := by
  cases live : f.host.isLive receiver with
  | false =>
    have dead : f.call openHost receiver c = f.call Tree.host receiver c := by simp [call,openHost,Tree.host,live]
    rw [dead]
    exact ⟨rfl,.same⟩
  | true =>
    have announced : Tree.host.hasMethod f.host receiver c.method = (Method.ofName? c.method).isSome := by
      rw [hasMethod_eq,live,Bool.true_and]
    cases lookup : Method.ofName? c.method with
    | none =>
      rw [lookup] at announced
      have unlisted : f.call Tree.host receiver c =
          f.fail c.method (.invalidMethod c.method (f.host.describe receiver)) := by
        rw [call,announced]
        simp [Tree.host,live]
      have refused : f.call openHost receiver c =
          f.fail c.method (.invalidMethod c.method (Value.handleText receiver)) := by
        simp [call,openHost,Tree.host,live,invoke_unknown live lookup]
      rw [unlisted,refused]
      exact ⟨rfl,.denied⟩
    | some known =>
      obtain ⟨node,found⟩ := Option.isSome_iff_exists.mp live
      have notDenied := @invoke_known f.host receiver node c.method known c.args found lookup
      rw [lookup] at announced
      have asked : f.call openHost receiver c = f.call Tree.host receiver c := by
        rw [call,call,announced]
        simp only [openHost,Tree.host,live]
        cases answered : f.host.invoke receiver c.method c.args with
        | mk after result =>
          rw [answered] at notDenied
          cases result with
          | ok v => rfl
          | error error =>
            cases error with
            | notFound method => exact absurd ⟨method,rfl⟩ notDenied
            | invalidArguments | failed => rfl
      rw [asked]
      exact ⟨rfl,.same⟩

/-- What two runs of a chain have in common: the tree, the target and the notices that they leave, what they hand over,
and, but for the name of a node, their answers. -/
structure Agree (run other : Focus Tree × τ × Except ChainError (List Completed)) : Prop where
  focus : other.1 = run.1
  handed : other.2.1 = run.2.1
  answer : Alike run.1.host run.2.2 other.2.2

theorem runCalls_open (onStep : τ → Completed → τ) (f : Focus Tree) (seen : τ) (results : List Completed)
    (calls : List Call) :
    Agree (f.runCalls Tree.host onStep seen results calls) (f.runCalls openHost onStep seen results calls) := by
  induction calls generalizing f seen results with
  | nil => exact ⟨rfl,rfl,.same⟩
  | cons c later ih =>
    -- Which objects are live is asked of both hosts alike, so that the call has one receiver.
    have receiver : f.receiver openHost (results.getLast?.map Completed.value) =
        f.receiver Tree.host (results.getLast?.map Completed.value) := rfl
    obtain ⟨moved,alike⟩ := call_open f (f.receiver Tree.host (results.getLast?.map Completed.value)) c
    unfold runCalls
    rw [receiver]
    cases called : f.call Tree.host (f.receiver Tree.host (results.getLast?.map Completed.value)) c with
    | mk g answer =>
      cases opened : f.call openHost (f.receiver Tree.host (results.getLast?.map Completed.value)) c with
      | mk h other =>
        rw [called,opened] at moved alike
        dsimp only at moved alike
        subst moved
        cases alike with
        | denied => exact ⟨rfl,rfl,.denied⟩
        | same =>
          cases answer with
          | ok v => exact ih h (onStep seen ⟨c.method,v⟩) (results ++ [⟨c.method,v⟩])
          | error error => exact ⟨rfl,rfl,.same⟩

/-- Asking for a method before its call changes nothing but a name: on every tree a node has just the methods that no call
denies, and a host that claims all of them runs every chain to the same tree, target, notices and hand-overs, with the
same answer up to the text that names the node which lacks a method. -/
theorem runChainWith_open (onStep : τ → Completed → τ) (f : Focus Tree) (seen : τ) (text : String) :
    Agree (f.runChainWith Tree.host onStep seen text) (f.runChainWith openHost onStep seen text) ∧
      ∀ id method args, Tree.host.hasMethod f.host id method = true ↔
        f.host.isLive id ∧ Known (Tree.host.invoke f.host id method args).2 := by
  refine ⟨?_,fun _ _ args => hasMethod_iff args⟩
  unfold runChainWith
  cases Chain.read text with
  | error error => exact ⟨rfl,rfl,.same⟩
  | ok calls => exact runCalls_open onStep f seen [] calls

end Focus
end TreeConsole
