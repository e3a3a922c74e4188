import TreeConsole.Proofs.Focus.Destination
import TreeConsole.Proofs.Session.Command

/-! The target, replayed from notices.
A change of the target succeeds exactly when its path leads to a node, and tells of it once; a refused one leaves the
target and tells why. Nothing else moves the target, so that it is the last one that a session told of.
-/
namespace TreeConsole
open TreeConsole.Tree

/-! Taking over preferences -/

/-- Preferences are taken over as a whole, with a change to their start path if they have one, or not at all. -/
inductive Configures (session : Session Tree) (t : Tree) (preferences : Preferences) :
    Session Tree × List Notice × Except ConsoleError Unit → Prop
  | stayed (unset : preferences.startPath = none) :
      Configures session t preferences ({ session with preferences := preferences },[],.ok ())
  | moved {path id} (set : preferences.startPath = some path) (leads : Leads t session.current path id)
      (live : t.isLive id) : Configures session t preferences
        ({ session with current := id,preferences := preferences },[.targetChanged id],.ok ())
  | refused {path} (set : preferences.startPath = some path) (nowhere : ∀ id, ¬ Leads t session.current path id) :
      Configures session t preferences
        (session,[.targetChangeFailed (refusal path)],.error (.startPath path (refusal path)))

variable {σ : Type} {t : Tree} {f : Focus Tree} {sent : List Notice}

theorem Tree.WellFormed.configure_configures (wellFormed : t.WellFormed) (session : Session Tree) (preferences : Preferences) :
    Configures session t preferences (session.configure Tree.host t preferences) := by
  unfold Session.configure
  cases set : preferences.startPath with
  | none => exact .stayed set
  | some path =>
    have selects := @WellFormed.select_selects (session.world t).toFocus wellFormed path
    dsimp only
    cases moved : (session.world t).toFocus.select Tree.host path with
    | mk g answer =>
      rw [moved] at selects
      cases selects with
      | moved leads live => exact .moved set leads live
      | refused nowhere => exact .refused set nowhere

/-! The last target told of -/

def Notice.target? : Notice → Option Handle
  | .targetChanged id => some id
  | _ => none

def lastTarget (notices : List Notice) : Option Handle := (notices.filterMap Notice.target?).getLast?

theorem lastTarget_append (before sent : List Notice) :
    lastTarget (before ++ sent) = (lastTarget sent).or (lastTarget before) := by
  rw [lastTarget,List.filterMap_append,List.getLast?_append]
  rfl

theorem lastTarget_calls (calls : ∀ notice ∈ sent, notice.IsCall) : lastTarget sent = none := by
  have none : sent.filterMap Notice.target? = [] := by
    rw [List.filterMap_eq_nil_iff]
    intro notice member
    cases calls notice member
    rfl
  rw [lastTarget,none,List.getLast?_nil]

/-- Notices that tell of every change of the target between two focuses. -/
def Tells (f after : Focus σ) : Prop :=
  ∃ sent, after.notices = f.notices ++ sent ∧ after.current = (lastTarget sent).getD f.current

theorem Tells.refl (f : Focus σ) : Tells f f := ⟨[],(List.append_nil _).symm,rfl⟩

theorem Focus.select_tells (host : Host σ) (f : Focus σ) (path : String) : Tells f (f.select host path).1 := by
  rcases select_cases host f path with ⟨reason,refused⟩ | ⟨id,moved⟩
  · rw [refused]
    exact ⟨_,rfl,rfl⟩
  · rw [moved]
    exact ⟨_,rfl,rfl⟩

theorem Focus.runChain_tells (host : Host σ) (f : Focus σ) (text : String) : Tells f (f.runChain host text).1 := by
  obtain ⟨s,attempts,left,calls⟩ := runChain_attempts host f text
  rw [left]
  exact ⟨attempts,rfl,by rw [lastTarget_calls calls,Option.getD_none]⟩

theorem Effect.tells {w after : World σ} {command : Option String} {outcome : Outcome}
    (effect : Effect w command after outcome) : Tells w.toFocus after.toFocus := by
  cases effect with
  | none => exact .refl _
  | rejected => exact ⟨_,rfl,rfl⟩
  | selected => exact ⟨_,rfl,rfl⟩
  | called calls => exact ⟨_,rfl,by rw [lastTarget_calls calls,Option.getD_none]; rfl⟩
  | prompted => exact .refl _
  | printing => exact .refl _

theorem Session.configure_tells (host : Host σ) (session : Session σ) (s : σ) (preferences : Preferences) :
    (session.configure host s preferences).1.current =
      (lastTarget (session.configure host s preferences).2.1).getD session.current := by
  unfold Session.configure
  cases preferences.startPath with
  | none => rfl
  | some path =>
    rcases Focus.select_cases host (session.world s).toFocus path with ⟨reason,refused⟩ | ⟨id,moved⟩
    · simp only [refused]
      rfl
    · simp only [moved]
      rfl

theorem Session.execute_tells {host : Host σ} {session : Session σ} (isBuiltin : session.catalog = (Builtin.catalog host).1)
    (s : σ) (line : String) : (session.execute s line).session.current =
      (lastTarget (session.execute s line).notices).getD session.current := by
  have effect := Catalog.executeLine_effect (affects_of_builtin isBuiltin) line (session.world s)
  unfold Session.execute
  generalize session.catalog.executeLine line (session.world s) = result at effect
  obtain ⟨sent,notices,current⟩ := effect.tells
  obtain rfl : result.1.notices = sent := notices
  exact current

/-! Runs -/

/-- A session on a tree, with all that it has told of so far. -/
structure Observed where
  host : Tree
  session : Session Tree
  notices : List Notice

/-- What is done with a session, and to its tree past it. -/
inductive Move where
  | select (path : String)
  | configure (preferences : Preferences)
  | chain (text : String)
  | line (text : String)
  | operation (operation : Operation)

namespace Observed
variable {o : Observed} {moves : List Move} {catalog : Catalog (Handler Tree)}

def start (t : Tree) (catalog : Catalog (Handler Tree)) : Observed := ⟨t,.start Tree.host t catalog,[]⟩

def focus (o : Observed) : Focus Tree := ⟨o.host,o.session.current,o.notices⟩

def refocus (o : Observed) (f : Focus Tree) : Observed := ⟨f.host,{ o.session with current := f.current },f.notices⟩

theorem focus_refocus (o : Observed) (f : Focus Tree) : (o.refocus f).focus = f := rfl

theorem catalog_refocus (o : Observed) (f : Focus Tree) : (o.refocus f).session.catalog = o.session.catalog := rfl

def take (o : Observed) : Move → Observed
  | .select path => o.refocus (o.focus.select Tree.host path).1
  | .configure preferences =>
    let (session,sent,_) := o.session.configure Tree.host o.host preferences
    ⟨o.host,session,o.notices ++ sent⟩
  | .chain text => o.refocus (o.focus.runChain Tree.host text).1
  | .line text =>
    let reply := o.session.execute o.host text
    ⟨reply.host,reply.session,o.notices ++ reply.notices⟩
  | .operation operation => { o with host := (o.host.apply operation).1 }

def run (o : Observed) (moves : List Move) : Observed := moves.foldl take o

/-- Lines may be typed where the commands are the built-in ones, since others could do anything. -/
def Typed (catalog : Catalog (Handler Tree)) (moves : List Move) : Prop :=
  ∀ text, .line text ∈ moves → catalog = (Builtin.catalog Tree.host).1

theorem catalog_take (o : Observed) (move : Move) (typed : Typed o.session.catalog [move]) :
    (o.take move).session.catalog = o.session.catalog := by
  cases move with
  | select => rw [take,catalog_refocus]
  | chain => rw [take,catalog_refocus]
  | operation => rfl
  | configure preferences =>
    simp only [take,Session.configure]
    cases preferences.startPath with
    | none => rfl
    | some path =>
      dsimp only
      split <;> rfl
  | line text => exact (Session.framed_of_builtin (typed text (by simp)) o.host text).catalog

theorem tells_take (o : Observed) (move : Move) (typed : Typed o.session.catalog [move]) :
    Tells o.focus (o.take move).focus := by
  cases move with
  | select path =>
    rw [take,focus_refocus]
    exact Focus.select_tells Tree.host o.focus path
  | chain text =>
    rw [take,focus_refocus]
    exact Focus.runChain_tells Tree.host o.focus text
  | operation => exact ⟨[],(List.append_nil _).symm,rfl⟩
  | configure preferences => exact ⟨_,rfl,Session.configure_tells Tree.host o.session o.host preferences⟩
  | line text => exact ⟨_,rfl,Session.execute_tells (typed text (by simp)) o.host text⟩

/-- One move keeps the target the last one told of, and a run does so by its moves. -/
theorem tracked_take {first : Handle} (tracked : o.session.current = (lastTarget o.notices).getD first) (move : Move)
    (typed : Typed o.session.catalog [move]) :
    (o.take move).session.current = (lastTarget (o.take move).notices).getD first := by
  obtain ⟨sent,notices,current⟩ := o.tells_take move typed
  have notices : (o.take move).notices = o.notices ++ sent := notices
  have current : (o.take move).session.current = (lastTarget sent).getD o.session.current := current
  rw [notices,current,tracked,lastTarget_append]
  cases lastTarget sent <;> rfl

theorem tracked_run {first : Handle} (tracked : o.session.current = (lastTarget o.notices).getD first)
    (typed : Typed o.session.catalog moves) : (o.run moves).session.current = (lastTarget (o.run moves).notices).getD first := by
  induction moves generalizing o with
  | nil => exact tracked
  | cons move rest ih =>
    have now : Typed o.session.catalog [move] := fun text member => typed text (by simp [List.mem_singleton.mp member])
    refine @ih (o.take move) (tracked_take tracked move now) ?_
    rw [catalog_take o move now]
    exact fun text member => typed text (List.mem_cons_of_mem move member)

/-- On every tree that operations reach: a change of the target, from any handle, succeeds with the node that the path
leads to and no other; preferences are taken over as a whole or not at all; and whatever is done with a session and to
its tree, its target is the last one told of, or the root. -/
theorem target_replayed (operations : List Operation) :
    (∀ current notices path, Selects ⟨new.run operations,current,notices⟩ path
        (Focus.select Tree.host ⟨new.run operations,current,notices⟩ path) ∧
      ∀ id, (Focus.select Tree.host ⟨new.run operations,current,notices⟩ path).2 = .ok id ↔
        Leads (new.run operations) current path id) ∧
    (∀ session preferences, Configures session (new.run operations) preferences
      (session.configure Tree.host (new.run operations) preferences)) ∧
    ∀ catalog moves, Typed catalog moves →
      ((start (new.run operations) catalog).run moves).session.current =
        (lastTarget ((start (new.run operations) catalog).run moves).notices).getD root := by
  have wellFormed := wellFormed_run operations
  refine ⟨fun current notices path => ?_,fun session preferences => ?_,fun catalog moves typed => ?_⟩
  · have selects := @WellFormed.select_selects ⟨new.run operations,current,notices⟩ wellFormed path
    exact ⟨selects,fun id => selects.eq_ok_iff⟩
  · exact wellFormed.configure_configures session preferences
  · exact tracked_run rfl typed

/-- A start path, a target that is freed, a change from it that is refused, and another one by a line. -/
def visited : List Move :=
  [.configure ⟨"> ",true,some "a"⟩,.operation (.free 1),.select " ",.chain "add_child('c')",.line "cn b"]

theorem target_replayed_visited :
    ((start (new.run [.addChild root "a",.addChild root "b"]) (Builtin.catalog Tree.host).1).run visited).session.current = 2 := by
  have replayed := (target_replayed [.addChild root "a",.addChild root "b"]).2.2 (Builtin.catalog Tree.host).1 visited
    fun _ _ => rfl
  have told : lastTarget ((start (new.run [.addChild root "a",.addChild root "b"])
      (Builtin.catalog Tree.host).1).run visited).notices = some 2 := by decide +kernel
  rw [replayed,told,Option.getD_some]

end Observed
end TreeConsole
