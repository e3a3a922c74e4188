import TreeConsole.Proofs.Success
import TreeConsole.Proofs.Tree.Update
import TreeConsole.Proofs.Tree.View

/-! Operations on a tree and the changes they make.
A tree is changed from outside by adding children, freeing nodes and calling methods, in any order and with any
arguments. All that an operation can do and answer is listed, with the checks that were passed on the way to it;
seen from the tree alone these are five changes.
-/
namespace TreeConsole

namespace Method

theorem name_of_ofName? {name : String} {method : Method} (found : ofName? name = some method) : name = method.name := by
  have same := List.find?_some found
  exact (beq_iff_eq.mp same).symm

end Method

namespace Tree

inductive Operation where
  | addChild (parent : Handle) (name : String)
  | free (id : Handle)
  | invoke (id : Handle) (method : String) (args : List Value)

/-- The tree after an operation, and its answer; a refused operation leaves the tree as it was. -/
def apply (t : Tree) : Operation → Tree × Except HostError Value
  | .addChild parent name =>
    match t.addChild parent name with
    | .ok (grown,id) => (grown,.ok (.object id))
    | .error error => (t,.error error)
  | .free id =>
    match t.free id with
    | .ok freed => (freed,.ok .null)
    | .error error => (t,.error error)
  | .invoke id method args => t.invoke id method args

def run (t : Tree) (operations : List Operation) : Tree :=
  operations.foldl (fun before operation => (before.apply operation).1) t

structure ProperName (name : String) : Prop where
  nonempty : name ≠ ""
  noSlash : '/' ∉ name.toList
  notDot : name ≠ "."
  notDots : name ≠ ".."

theorem validName_iff {name : String} : validName name = true ↔ ProperName name := by
  have split : validName name = true ↔ name ≠ "" ∧ '/' ∉ name.toList ∧ name ≠ "." ∧ name ≠ ".." := by
    simp [validName,and_assoc]
  rw [split]
  exact ⟨fun ⟨a,b,c,d⟩ => ⟨a,b,c,d⟩,fun ⟨a,b,c,d⟩ => ⟨a,b,c,d⟩⟩

/-- One change of a tree, with what was checked before it. -/
inductive Change (t : Tree) : Tree → Prop
  | none : Change t t
  | sprouted (parent : Handle) (name : String) (live : t.isLive parent) (proper : ProperName name)
      (unused : t.child? parent name = .none) : Change t (t.sprout parent name)
  | renamed (id : Handle) (name : String) (live : t.isLive id) (proper : ProperName name)
      (unused : ∀ parent taken, t.parent? id = some parent → t.child? parent name = some taken → taken = id) :
      Change t (t.modify id fun node => { node with name := name })
  | annotated (id : Handle) (key : String) (v : Value) (live : t.isLive id) :
      Change t (t.modify id fun node => { node with metadata := node.metadata.insert key v })
  | freed (id : Handle) (live : t.isLive id) (inner : id ≠ root) :
      Change t ((t.detach id).release t.size [id])

/-- An operation that is to add a child, from outside or by its method. -/
inductive Operation.Adds (parent : Handle) (name : String) : Operation → Prop
  | direct : Adds parent name (.addChild parent name)
  | called : Adds parent name (.invoke parent Method.addChild.name [.string name])

inductive Operation.Frees (id : Handle) : Operation → Prop
  | direct : Frees id (.free id)
  | called : Frees id (.invoke id Method.free.name [])

/-- What an operation does to a tree and answers, with what was checked before it. -/
inductive Step (t : Tree) : Operation → Tree → Except HostError Value → Prop
  | refused {operation error} : Step t operation t (.error error)
  | asked {id} {method : Method} {args v} (query : method.isQuery) : Step t (.invoke id method.name args) t (.ok v)
  | added {operation parent name} (adds : operation.Adds parent name) (live : t.isLive parent) (proper : ProperName name)
      (unused : t.child? parent name = none) : Step t operation (t.sprout parent name) (.ok (.object t.size))
  | renamed {id name} (live : t.isLive id) (proper : ProperName name)
      (unused : ∀ parent taken, t.parent? id = some parent → t.child? parent name = some taken → taken = id) :
      Step t (.invoke id Method.rename.name [.string name]) (t.modify id fun node => { node with name := name }) (.ok .null)
  | annotated {id key v} (live : t.isLive id) : Step t (.invoke id Method.setMeta.name [.string key,v])
      (t.modify id fun node => { node with metadata := node.metadata.insert key v }) (.ok .null)
  | freed {operation id} (frees : operation.Frees id) (live : t.isLive id) (inner : id ≠ root) :
      Step t operation ((t.detach id).release t.size [id]) (.ok .null)

variable {t after : Tree} {id parent : Handle} {node : Node} {name method : String} {self : Option Handle}
variable {args : List Value} {answer : Value}

theorem checkName_ok {above : Option Handle} (ok : t.checkName method above name self = .ok ()) :
    ProperName name ∧ ∀ parent taken, above = some parent → t.child? parent name = some taken → some taken = self := by
  unfold checkName at ok
  split at ok
  · cases ok
  next valid =>
    refine ⟨validName_iff.mp (by simpa using valid),?_⟩
    intro parent taken isParent found
    simp only [isParent,Option.bind_some,found,Option.map_some] at ok
    split at ok
    next same => exact same
    next => cases ok

namespace Update

theorem addChild_ok (ok : addChild parent name t = .ok id after) :
    t.isLive parent ∧ ProperName name ∧ t.child? parent name = none ∧ id = t.size ∧ after = t.sprout parent name := by
  rw [addChild,get_bind] at ok
  obtain ⟨live,ok⟩ := require_bind_eq_ok_iff.mp ok
  obtain ⟨_,checked,ok⟩ := ofExcept_bind_eq_ok_iff.mp ok
  obtain ⟨proper,unused⟩ := checkName_ok checked
  cases ok
  refine ⟨live,proper,?_,rfl,rfl⟩
  cases found : t.child? parent name with
  | none => rfl
  | some taken => cases unused parent taken rfl found

theorem free_eq_ok_iff {done : Unit} : free id t = .ok done after ↔
    t.isLive id ∧ id ≠ root ∧ after = (t.detach id).release t.size [id] := by
  rw [free,get_bind]
  constructor
  · intro ok
    obtain ⟨live,ok⟩ := require_bind_eq_ok_iff.mp ok
    obtain ⟨inner,ok⟩ := require_bind_eq_ok_iff.mp ok
    cases ok
    exact ⟨live,by simpa using inner,rfl⟩
  · rintro ⟨live,inner,rfl⟩
    exact require_bind_eq_ok_iff.mpr ⟨live,require_bind_eq_ok_iff.mpr ⟨by simpa using inner,rfl⟩⟩

theorem rename_ok {done : Unit} (ok : rename id node name t = .ok done after) :
    ProperName name ∧ (∀ parent taken, node.parent = some parent → t.child? parent name = some taken → taken = id) ∧
      after = t.modify id fun node => { node with name := name } := by
  rw [rename,get_bind] at ok
  obtain ⟨_,checked,ok⟩ := ofExcept_bind_eq_ok_iff.mp ok
  obtain ⟨proper,unused⟩ := checkName_ok checked
  cases ok
  exact ⟨proper,fun parent taken isParent found => by simpa using unused parent taken isParent found,rfl⟩

end Update

theorem addChild_ok (ok : t.addChild parent name = .ok (after,id)) :
    t.isLive parent ∧ ProperName name ∧ t.child? parent name = none ∧ id = t.size ∧ after = t.sprout parent name :=
  Update.addChild_ok (Update.result_eq_ok_iff.mp ok)

theorem free_eq_ok_iff : t.free id = .ok after ↔
    t.isLive id ∧ id ≠ root ∧ after = (t.detach id).release t.size [id] :=
  free_result_iff.trans Update.free_eq_ok_iff

theorem stringArgument_ok {known : Method} {v : Value} (ok : stringArgument known v = .ok name) : v = .string name := by
  unfold stringArgument at ok
  cases v with
  | string s => cases ok; rfl
  | _ => cases ok

theorem perform_step {known : Method} (found : t.liveNode? id = some node)
    (ok : Update.perform id node known args t = .ok answer after) : Step t (.invoke id known.name args) after (.ok answer) := by
  cases query : known.isQuery with
  | true =>
    rw [(Update.perform_reads query).kept t answer after ok]
    exact .asked query
  | false =>
    have live := isLive_of_liveNode? found
    have parentIs := parent?_of_node? (liveNode?_eq_some_iff.mp found).1
    cases known,args using Method.applied_cases with
    | addChild =>
      obtain ⟨_,isName,ok⟩ := Update.ofExcept_bind_eq_ok_iff.mp ok
      obtain ⟨_,_,added,ok⟩ := Update.bind_eq_ok_iff.mp ok
      cases ok
      obtain ⟨_,proper,unused,rfl,rfl⟩ := Update.addChild_ok added
      rw [stringArgument_ok isName]
      exact .added .called live proper unused
    | rename =>
      obtain ⟨_,isName,ok⟩ := Update.ofExcept_bind_eq_ok_iff.mp ok
      obtain ⟨_,_,renamed,ok⟩ := Update.bind_eq_ok_iff.mp ok
      cases ok
      obtain ⟨proper,unused,rfl⟩ := Update.rename_ok renamed
      rw [stringArgument_ok isName]
      exact .renamed live proper (parentIs ▸ unused)
    | setMeta =>
      obtain ⟨_,isKey,ok⟩ := Update.ofExcept_bind_eq_ok_iff.mp ok
      cases ok
      rw [stringArgument_ok isKey]
      exact .annotated live
    | free =>
      obtain ⟨_,_,freed,ok⟩ := Update.bind_eq_ok_iff.mp ok
      cases ok
      obtain ⟨_,inner,rfl⟩ := Update.free_eq_ok_iff.mp freed
      exact .freed .called live inner
    | wrongly _ _ wrong =>
      rw [Update.perform_wrongly wrong] at ok
      cases ok
    -- The other methods only ask.
    | _ => cases query

theorem call_step (ok : Update.call id method args t = .ok answer after) :
    Step t (.invoke id method args) after (.ok answer) := by
  obtain ⟨node,known,found,lookup,performed⟩ := Update.exists_of_call ok
  rw [Method.name_of_ofName? lookup]
  exact perform_step found performed

/-- Every operation, refused or not, makes one of the listed steps. -/
theorem apply_step (t : Tree) (operation : Operation) : Step t operation (t.apply operation).1 (t.apply operation).2 := by
  cases operation with
  | addChild parent name =>
    cases result : t.addChild parent name with
    | error => simpa [apply,result] using Step.refused
    | ok grown =>
      obtain ⟨live,proper,unused,fresh,same⟩ := addChild_ok result
      simpa [apply,result,fresh,same] using Step.added .direct live proper unused
  | free id =>
    cases result : t.free id with
    | error => simpa [apply,result] using Step.refused
    | ok freed =>
      obtain ⟨live,inner,same⟩ := free_eq_ok_iff.mp result
      simpa [apply,result,same] using Step.freed .direct live inner
  | invoke id method args =>
    cases result : Update.call id method args t with
    | error error after =>
      have same := Update.call_atomic t error after result
      simpa [apply,invoke,Update.outcome,result,same] using Step.refused
    | ok => simpa [apply,invoke,Update.outcome,result] using call_step result

theorem Step.change {operation : Operation} {answer : Except HostError Value} (step : Step t operation after answer) :
    Change t after := by
  cases step with
  | refused | asked => exact .none
  | added _ live proper unused => exact .sprouted _ _ live proper unused
  | renamed live proper unused => exact .renamed _ _ live proper unused
  | annotated live => exact .annotated _ _ _ live
  | freed _ live inner => exact .freed _ live inner

theorem apply_change (t : Tree) (operation : Operation) : Change t (t.apply operation).1 := (apply_step t operation).change

/-- What every change keeps holds after every run. -/
theorem run_induction {motive : Tree → Prop} (step : ∀ before after, motive before → Change before after → motive after)
    (operations : List Operation) (start : motive t) : motive (t.run operations) := by
  induction operations generalizing t with
  | nil => exact start
  | cons operation later ih => exact ih (step t _ start (apply_change t operation))

end Tree
end TreeConsole
