import TreeConsole.Proofs.Last
import TreeConsole.Proofs.Table
import TreeConsole.Proofs.Tree.History

/-! Metadata over whole runs.
A node keeps the values that were written under its keys, whatever becomes of the node and of others: a step changes at most
the one key of the one node that it writes to, and a value lasts until the next one is written in its place.
-/
namespace TreeConsole.Tree
variable {t after : Tree} {id other : Handle} {key written : String} {v : Value} {operation : Operation}
variable {answer : Except HostError Value} {queue : List Handle}

/-- The value under a key of a node, live or freed. -/
def annotation? (t : Tree) (id : Handle) (key : String) : Option Value := (t.metadata? id).bind fun entries => entries.get? key

/-- The operations of a run, each with its answer. -/
def transcript (t : Tree) : List Operation → List (Operation × Except HostError Value)
  | [] => []
  | operation :: rest => (operation,(t.apply operation).2) :: (t.apply operation).1.transcript rest

/-- What an operation that was answered has written under a key of a node: only a call of `set_meta` on this node and key
that succeeded has written its value there. -/
def written? (id : Handle) (key : String) : Operation × Except HostError Value → Option Value
  | (.invoke other method [.string written,v],.ok _) =>
    if other = id ∧ method = "set_meta" ∧ written = key then some v else none
  | _ => none

theorem written?_eq_some_iff : written? id key (operation,answer) = some v ↔
    operation = .invoke id "set_meta" [.string key,v] ∧ ∃ result, answer = .ok result := by
  constructor
  · intro writes
    unfold written? at writes
    split at writes
    next same =>
      cases same
      obtain ⟨⟨rfl,rfl,rfl⟩,value⟩ := Option.ite_none_right_eq_some.mp writes
      cases value
      exact ⟨rfl,_,rfl⟩
    next => cases writes
  · rintro ⟨rfl,_,rfl⟩
    exact if_pos ⟨rfl,rfl,rfl⟩

theorem written?_eq_none (other : ∀ v, operation ≠ .invoke id "set_meta" [.string key,v]) :
    written? id key (operation,answer) = none :=
  Option.eq_none_iff_forall_ne_some.mpr fun v writes => other v (written?_eq_some_iff.mp writes).1

/-! One step -/

theorem metadata?_release (steps : Nat) : (t.release steps queue).metadata? id = t.metadata? id := by
  induction steps generalizing t queue with
  | zero => rfl
  | succ steps ih =>
    cases queue with
    | nil => rfl
    | cons first rest => rw [release_cons,ih,metadata?_close]

/-- A new node has no metadata, even where an older one had its name. -/
theorem annotation?_sprout {parent : Handle} {name : String} :
    (t.sprout parent name).annotation? id key = t.annotation? id key := by
  unfold annotation?
  rw [metadata?_sprout]
  split
  next fresh =>
    have absent : t.metadata? id = none := by rw [metadata?,node?_eq_none (Nat.le_of_eq fresh.symm),Option.map_none]
    rw [absent]
    rfl
  next => rfl

theorem annotation?_annotate (live : t.isLive other) :
    (t.modify other fun node => { node with metadata := node.metadata.insert written v }).annotation? id key =
      (if other = id ∧ written = key then some v else none).or (t.annotation? id key) := by
  obtain ⟨node,found,_⟩ := isLive_iff.mp live
  unfold annotation? metadata?
  rw [node?_modify]
  by_cases here : id = other
  · subst here
    simp only [found,if_true,Option.map_some,Option.bind_some,true_and]
    exact Table.get?_insert_or
  · simp only [if_neg here,Ne.symm here,false_and,if_false,Option.none_or]

theorem Step.annotation?_eq (step : Step t operation after answer) (id : Handle) (key : String) :
    after.annotation? id key = (written? id key (operation,answer)).or (t.annotation? id key) := by
  cases step with
  | @refused _ error =>
    have nothing : written? id key (operation,.error error) = none :=
      Option.eq_none_iff_forall_ne_some.mpr fun v writes => nomatch (written?_eq_some_iff.mp writes).2
    rw [nothing,Option.none_or]
  | @asked _ method _ _ query =>
    have other : method.name ≠ Method.setMeta.name := by
      intro same
      have reached : Method.ofName? method.name = some .setMeta := same ▸ Method.ofName?_name .setMeta
      obtain rfl : method = .setMeta := Option.some.inj ((Method.ofName?_name method).symm.trans reached)
      cases query
    rw [written?_eq_none fun v same => other (Operation.invoke.inj same).2.1,Option.none_or]
  | added adds => rw [written?_eq_none (by cases adds <;> simp),annotation?_sprout,Option.none_or]
  | renamed =>
    unfold Tree.annotation?
    rw [written?_eq_none (by simp),metadata?_modify (by intro _; rfl),Option.none_or]
  | annotated live =>
    rw [annotation?_annotate live]
    simp [written?,Method.name]
  | freed frees =>
    unfold Tree.annotation?
    rw [written?_eq_none (by cases frees <;> simp),metadata?_release,metadata?_detach,Option.none_or]

/-! Whole runs -/

theorem annotation?_run (operations : List Operation) : (t.run operations).annotation? id key =
    (((t.transcript operations).filterMap (written? id key)).getLast?).or (t.annotation? id key) := by
  induction operations generalizing t with
  | nil => rfl
  | cons operation rest ih =>
    rw [run_cons,ih,(apply_step t operation).annotation?_eq,transcript,getLast?_filterMap_cons,Option.or_assoc]

theorem annotation?_new : new.annotation? id key = none := by
  unfold annotation? metadata?
  rw [node?_new]
  split <;> rfl

theorem invoke_get_meta (live : t.isLive id) (key : String) :
    t.invoke id "get_meta" [.string key] = (t,.ok ((t.annotation? id key).getD .null)) := by
  obtain ⟨node,found,alive⟩ := isLive_iff.mp live
  have called : Update.call id "get_meta" [.string key] t = .ok ((node.metadata.get? key).getD .null) t :=
    Update.call_eq (liveNode?_eq_some_iff.mpr ⟨found,alive⟩) (Method.ofName?_name .getMeta) [.string key]
  rw [annotation?,metadata?,found]
  exact Update.outcome_eq_ok_iff.mpr called

theorem invoke_set_meta (live : t.isLive id) (key : String) (v : Value) :
    (t.invoke id "set_meta" [.string key,v]).2 = .ok .null := by
  obtain ⟨node,found,alive⟩ := isLive_iff.mp live
  have called : Update.call id "set_meta" [.string key,v] t =
      .ok .null (t.modify id fun node => { node with metadata := node.metadata.insert key v }) :=
    Update.call_eq (liveNode?_eq_some_iff.mpr ⟨found,alive⟩) (Method.ofName?_name .setMeta) [.string key,v]
  exact congrArg Prod.snd (Update.outcome_eq_ok_iff.mpr called)

/-- After every run a live node answers `get_meta` with the value of the last successful `set_meta` on this node and key, or
with nothing if there was none, and does not change the tree; and every `set_meta` on it succeeds. -/
theorem get_meta_last_written (operations : List Operation) (live : (new.run operations).isLive id) (key : String) :
    (new.run operations).invoke id "get_meta" [.string key] = (new.run operations,
      .ok ((((new.transcript operations).filterMap (written? id key)).getLast?).getD .null)) ∧
    ∀ v, ((new.run operations).invoke id "set_meta" [.string key,v]).2 = .ok .null := by
  refine ⟨?_,invoke_set_meta live key⟩
  rw [invoke_get_meta live,annotation?_run,annotation?_new,Option.or_none]

/-- Two nodes of one name, the first freed; keys written over, on other nodes, without success, and before a rename. -/
def annotatedRun : List Operation :=
  [.addChild root "a",.invoke 1 "set_meta" [.string "k",.int 1],.addChild root "b",.invoke 2 "set_meta" [.string "k",.int 2],
    .invoke 1 "set_meta" [.string "k",.bool true],.invoke 1 "set_meta" [.string "j",.int 3],
    .invoke 1 "set_meta" [.int 4,.string "k"],.free 2,.invoke 2 "set_meta" [.string "k",.int 5],
    .invoke 1 "rename" [.string "c"],.addChild root "b"]

theorem get_meta_last_written_renamed :
    ((new.run annotatedRun).invoke 1 "get_meta" [.string "k"]).2 = .ok (.bool true) ∧
    ((new.run annotatedRun).invoke 3 "get_meta" [.string "k"]).2 = .ok .null := by
  obtain ⟨renamed,_⟩ := @get_meta_last_written 1 annotatedRun (by decide +kernel) "k"
  obtain ⟨again,_⟩ := @get_meta_last_written 3 annotatedRun (by decide +kernel) "k"
  exact ⟨congrArg Prod.snd renamed,congrArg Prod.snd again⟩

end TreeConsole.Tree
