import TreeConsole.Tree.Method

/-! Operations in place.
An operation is put together from checks, which change nothing, and from changes, which do not fail. How it goes, and
what it leaves when it stops, follows from how its parts go: all operations make every check before the first change.
-/
namespace TreeConsole

namespace Method

/-- The methods that only ask. -/
def isQuery : Method → Bool
  | .addChild | .rename | .setMeta | .free => false
  | _ => true

/-- A method is applied to as many arguments as it takes, or wrongly. -/
theorem applied_cases {motive : Method → List Value → Prop} (getName : motive .getName [])
    (getPath : motive .getPath []) (getChildCount : motive .getChildCount [])
    (getChild : ∀ index, motive .getChild [index]) (getChildren : motive .getChildren [])
    (getParent : motive .getParent []) (find : ∀ name, motive .find [name])
    (addChild : ∀ name, motive .addChild [name]) (rename : ∀ name, motive .rename [name])
    (setMeta : ∀ key v, motive .setMeta [key,v]) (getMeta : ∀ key, motive .getMeta [key]) (free : motive .free [])
    (wrongly : ∀ method args, args.length ≠ method.arity → motive method args) (method : Method) (args : List Value) :
    motive method args := by
  by_cases right : args.length = method.arity
  case neg => exact wrongly method args right
  match method,args with
  | .getName,[] => exact getName
  | .getPath,[] => exact getPath
  | .getChildCount,[] => exact getChildCount
  | .getChild,[index] => exact getChild index
  | .getChildren,[] => exact getChildren
  | .getParent,[] => exact getParent
  | .find,[name] => exact find name
  | .addChild,[name] => exact addChild name
  | .rename,[name] => exact rename name
  | .setMeta,[key,v] => exact setMeta key v
  | .getMeta,[key] => exact getMeta key
  | .free,[] => exact free

end Method

namespace Tree
namespace Update
variable {α β : Type} {u : Update α} {next : α → Update β} {t after : Tree} {a : α} {b : β} {error : HostError}
variable {holds : Bool} {result : Except HostError α} {id parent : Handle} {node : Node} {name method : String}
variable {known : Method} {args : List Value}

theorem get_bind {next : Tree → Update β} : (get >>= next) t = next t t := rfl

theorem bind_eq_ok_iff : (u >>= next) t = .ok b after ↔ ∃ a between, u t = .ok a between ∧ next a between = .ok b after := by
  change EStateM.bind u next t = _ ↔ _
  unfold EStateM.bind
  constructor
  · intro ok
    split at ok
    next a between first => exact ⟨a,between,first,ok⟩
    next => cases ok
  · rintro ⟨a,between,first,ok⟩
    rw [first]
    exact ok

theorem bind_eq_error_iff : (u >>= next) t = .error error after ↔
    u t = .error error after ∨ ∃ a between, u t = .ok a between ∧ next a between = .error error after := by
  change EStateM.bind u next t = _ ↔ _
  unfold EStateM.bind
  constructor
  · intro failed
    split at failed
    next a between first => exact .inr ⟨a,between,first,failed⟩
    next first => cases failed; exact .inl first
  · rintro (failed | ⟨a,between,first,failed⟩)
    · rw [failed]
    · rw [first]
      exact failed

/-- A check that is passed hands the tree on as it is. -/
theorem require_bind_eq_ok_iff {next : Unit → Update β} :
    (require holds error >>= next) t = .ok b after ↔ holds = true ∧ next () t = .ok b after := by
  cases holds with
  | false => exact iff_of_false (fun ok => nomatch ok) (by simp)
  | true => exact (and_iff_right rfl).symm

theorem ofExcept_eq_ok_iff : ofExcept result t = .ok a after ↔ result = .ok a ∧ after = t := by
  cases result with
  | error => exact iff_of_false (fun ok => nomatch ok) (by simp)
  | ok v => exact ⟨fun ok => by cases ok; exact ⟨rfl,rfl⟩,fun ⟨same,left⟩ => by rw [left,Except.ok.inj same]; rfl⟩

theorem ofExcept_bind_eq_ok_iff :
    (ofExcept result >>= next) t = .ok b after ↔ ∃ a, result = .ok a ∧ next a t = .ok b after := by
  simp only [bind_eq_ok_iff,ofExcept_eq_ok_iff]
  exact ⟨fun ⟨a,_,⟨same,left⟩,ok⟩ => ⟨a,same,left ▸ ok⟩,fun ⟨a,same,ok⟩ => ⟨a,t,⟨same,rfl⟩,ok⟩⟩

theorem outcome_eq_ok_iff : u.outcome t = (after,.ok a) ↔ u t = .ok a after := by
  unfold outcome
  cases u t <;> simp [and_comm]

theorem outcome_eq_error_iff : u.outcome t = (after,.error error) ↔ u t = .error error after := by
  unfold outcome
  cases u t <;> simp [and_comm]

theorem result_eq_ok_iff : u.result t = .ok (after,a) ↔ u t = .ok a after := by
  unfold Update.result outcome
  cases u t <;> simp [Except.map,and_comm]

theorem result_eq_error_iff : u.result t = .error error ↔ ∃ after, u t = .error error after := by
  unfold Update.result outcome
  cases u t <;> simp [Except.map]

theorem call_eq (found : t.liveNode? id = some node) (lookup : Method.ofName? method = some known) (args : List Value) :
    call id method args t = perform id node known args t := by
  rw [call,get_bind,found,lookup]

/-- A call that succeeds has reached a live node and a method of its. -/
theorem exists_of_call {v : Value} (ok : call id method args t = .ok v after) : ∃ node known,
    t.liveNode? id = some node ∧ Method.ofName? method = some known ∧ perform id node known args t = .ok v after := by
  cases found : t.liveNode? id with
  | none =>
    rw [call,get_bind,found] at ok
    cases ok
  | some node =>
    cases lookup : Method.ofName? method with
    | none =>
      rw [call,get_bind,found,lookup] at ok
      cases ok
    | some known => exact ⟨node,known,rfl,rfl,call_eq found lookup args ▸ ok⟩

/-! What a failure leaves -/

def Unfailing (u : Update α) : Prop := ∀ t error after, u t ≠ .error error after

/-- Leaves the tree as it was when it fails. -/
def Atomic (u : Update α) : Prop := ∀ t error after, u t = .error error after → after = t

/-- Leaves the tree as it was. -/
structure Reads (u : Update α) : Prop where
  kept : ∀ t a after, u t = .ok a after → after = t
  atomic : Atomic u

theorem unfailing_change (f : Tree → Tree) : Unfailing (change f) := fun _ _ _ failed => nomatch failed

theorem unfailing_edit (id : Handle) (f : Node → Node) : Unfailing (edit id f) := unfailing_change _

theorem unfailing_pure (a : α) : Unfailing (pure a) := fun _ _ _ failed => nomatch failed

theorem Unfailing.bind (first : Unfailing u) (later : ∀ a, Unfailing (next a)) : Unfailing (u >>= next) := by
  intro t error after failed
  rcases bind_eq_error_iff.mp failed with failed | ⟨a,between,_,failed⟩
  · exact first t error after failed
  · exact later a between error after failed

theorem Unfailing.atomic (unfailing : Unfailing u) : Atomic u :=
  fun t error after failed => absurd failed (unfailing t error after)

theorem reads_pure (a : α) : Reads (pure a) := ⟨fun _ _ _ ok => by cases ok; rfl,(unfailing_pure a).atomic⟩

theorem reads_get : Reads get := ⟨fun _ _ _ ok => by cases ok; rfl,fun _ _ _ failed => nomatch failed⟩

theorem reads_throw (error : HostError) : Reads (throw error : Update α) :=
  ⟨(fun _ _ _ ok => nomatch ok),fun _ _ _ failed => by cases failed; rfl⟩

theorem reads_require : Reads (require holds error) := by
  cases holds with
  | false => exact reads_throw error
  | true => exact reads_pure ()

theorem reads_ofExcept : Reads (ofExcept result) := by
  cases result with
  | error error => exact reads_throw error
  | ok a => exact reads_pure a

theorem Reads.bind_atomic (first : Reads u) (later : ∀ a, Atomic (next a)) : Atomic (u >>= next) := by
  intro t error after failed
  rcases bind_eq_error_iff.mp failed with failed | ⟨a,between,ok,failed⟩
  · exact first.atomic t error after failed
  · exact (later a between error after failed).trans (first.kept t a between ok)

theorem Reads.bind (first : Reads u) (later : ∀ a, Reads (next a)) : Reads (u >>= next) := by
  refine ⟨?_,first.bind_atomic fun a => (later a).atomic⟩
  intro t b after ok
  obtain ⟨a,between,begun,ok⟩ := bind_eq_ok_iff.mp ok
  exact ((later a).kept between b after ok).trans (first.kept t a between begun)

/-- What an atomic operation is followed by must not fail, for the change is made by then. -/
theorem Atomic.bind (first : Atomic u) (later : ∀ a, Unfailing (next a)) : Atomic (u >>= next) := by
  intro t error after failed
  rcases bind_eq_error_iff.mp failed with failed | ⟨a,between,_,failed⟩
  · exact first t error after failed
  · exact absurd failed (later a between error after)

/-! The operations -/

theorem addChild_atomic : Atomic (addChild parent name) := by
  refine reads_get.bind_atomic fun t => reads_require.bind_atomic fun _ => reads_ofExcept.bind_atomic fun _ => ?_
  exact ((unfailing_change _).bind fun _ => (unfailing_edit _ _).bind fun _ => unfailing_pure _).atomic

theorem free_atomic : Atomic (free id) := by
  refine reads_get.bind_atomic fun t => reads_require.bind_atomic fun _ => reads_require.bind_atomic fun _ => ?_
  exact ((unfailing_change _).bind fun _ => unfailing_change _).atomic

theorem rename_atomic : Atomic (rename id node name) :=
  reads_get.bind_atomic fun _ => reads_ofExcept.bind_atomic fun _ => (unfailing_edit _ _).atomic

theorem perform_wrongly (wrong : args.length ≠ known.arity) :
    perform id node known args = throw (wrongCount known args) := by
  unfold perform
  split
  -- All alternatives but the last fix the number of arguments.
  case h_13 => rfl
  all_goals exact absurd rfl wrong

theorem perform_reads (query : known.isQuery) : Reads (perform id node known args) := by
  cases known,args using Method.applied_cases with
  | getName | getChildCount | getChildren | getParent => exact reads_pure _
  | getPath => exact reads_get.bind fun _ => reads_pure _
  | getChild => exact reads_ofExcept.bind fun _ => reads_ofExcept
  | find => exact reads_ofExcept.bind fun _ => reads_get.bind fun _ => reads_pure _
  | getMeta => exact reads_ofExcept.bind fun _ => reads_pure _
  | addChild | rename | setMeta | free => cases query
  | wrongly _ _ wrong => rw [perform_wrongly wrong]; exact reads_throw _

theorem perform_atomic : Atomic (perform id node known args) := by
  cases query : known.isQuery with
  | true => exact (perform_reads query).atomic
  | false =>
    cases known,args using Method.applied_cases with
    | addChild => exact reads_ofExcept.bind_atomic fun _ => addChild_atomic.bind fun _ => unfailing_pure _
    | rename => exact reads_ofExcept.bind_atomic fun _ => rename_atomic.bind fun _ => unfailing_pure _
    | setMeta =>
      exact reads_ofExcept.bind_atomic fun _ => ((unfailing_edit _ _).bind fun _ => unfailing_pure _).atomic
    | free => exact free_atomic.bind fun _ => unfailing_pure _
    | wrongly _ _ wrong => rw [perform_wrongly wrong]; exact (reads_throw _).atomic
    | _ => cases query

theorem call_atomic : Atomic (call id method args) := by
  refine reads_get.bind_atomic fun t => ?_
  split
  · exact (reads_throw _).atomic
  · split
    · exact perform_atomic
    · exact (reads_throw _).atomic

end Update

theorem free_result_iff {t after : Tree} {id : Handle} : t.free id = .ok after ↔ Update.free id t = .ok () after := by
  unfold free Update.result Update.outcome
  cases Update.free id t <;> simp [Except.map]

end Tree
end TreeConsole
