import TreeConsole.Proofs.Catalog.History
import TreeConsole.Proofs.Signature.Plain
import TreeConsole.Command

/-! Dispatch after any history of registrations.
To tell which handlers a dispatch runs, each is replaced by one that keeps a record of its calls beside the host's
state: the place of its registration and the invocation it got. The record does not show in what else happens. A
dispatch leaves one call in it, or none and then a failure and the world as it was.
-/
namespace TreeConsole
variable {σ : Type}

theorem Signature.command_of_bind {sig : Signature} {tokens : List String} {inv : Invocation}
    (bound : sig.bind tokens = .ok inv) : inv.command = sig.name := by
  obtain ⟨found,_,bound⟩ := bind_eq_ok_iff.mp bound
  obtain ⟨arguments,_,bound⟩ := bind_eq_ok_iff.mp bound
  cases bound
  rfl

structure Called where
  place : Nat
  invocation : Invocation

namespace Called

def withLine (line : String) (called : Called) : Called :=
  { called with invocation := { called.invocation with line := line } }

end Called

namespace World

def recording (w : World σ) (calls : List Called) : World (σ × List Called) :=
  ⟨⟨(w.host,calls),w.current,w.notices⟩,w.preferences⟩

def unrecorded (w : World (σ × List Called)) : World σ := ⟨⟨w.host.1,w.current,w.notices⟩,w.preferences⟩

end World

def Handler.recorded (place : Nat) (handler : Handler σ) : Handler (σ × List Called) := fun commands inv w =>
  let (after,outcome) := handler commands inv w.unrecorded
  (after.recording (w.host.2 ++ [⟨place,inv⟩]),outcome)

namespace Catalog
variable {history : List (Registration (Handler σ))} {name : String} {entry : Entry (Handler σ)} {place : Nat}

def recorded (history : List (Registration (Handler σ))) : List (Registration (Handler (σ × List Called))) :=
  history.mapIdx fun place registration => registration.map (Handler.recorded place)

theorem Resolves.recorded (resolved : Resolves history name place entry) :
    Resolves (recorded history) name place ⟨entry.signature,entry.content.recorded place⟩ := by
  have entries {name place entry} (last : LastAt (Registration.command? name) history place entry) :=
    last.mapIdx (fun place registration => registration.map (Handler.recorded place))
      (fun place entry => (⟨entry.signature,entry.content.recorded place⟩ : Entry (Handler (σ × List Called))))
      fun place => Registration.command?_map (Handler.recorded place) name
  cases resolved with
  | command last => exact .command (entries last)
  | aliased unnamed leads last =>
    refine .aliased ?_ (leads.mapIdx _ (fun _ target => target) ?_) (entries last)
    · intro changed member
      obtain ⟨place,bound,rfl⟩ := List.mem_mapIdx.mp member
      rw [Registration.command?_map,unnamed _ (List.getElem_mem bound),Option.map_none]
    · intro place registration
      rw [Registration.target?_map,Option.map_id']

theorem map_recorded (history : List (Registration (Handler σ))) :
    (recorded history).map (Registration.map fun _ => ()) = history.map (Registration.map fun _ => ()) := by
  refine List.ext_getElem? fun place => ?_
  simp only [recorded,List.getElem?_map,List.getElem?_mapIdx,Option.map_map]
  congr 1
  funext registration
  cases registration <;> rfl

theorem listing_recorded : (ofHistory (recorded history)).listing = (ofHistory history).listing := by
  rw [listing_ofHistory,listing_ofHistory,map_recorded]

theorem find?_recorded_none (unknown : (ofHistory history).find? name = none) :
    (ofHistory (recorded history)).find? name = none := by
  have listed : (ofHistory (recorded history)).listing.find? name = none := by
    rw [listing_recorded,find?_listing,unknown,Option.map_none]
  rwa [find?_listing,Option.map_eq_none_iff] at listed

/-- The first token stands for a command, and the tokens after it are bound to its signature. -/
inductive Reaches (history : List (Registration (Handler σ))) :
    List String → Nat → Entry (Handler σ) → Invocation → Prop
  | intro {name rest place entry inv} (resolved : Resolves history name place entry)
      (bound : entry.signature.bind rest = .ok inv) : Reaches history (name :: rest) place entry inv

/-- What becomes of a list of tokens. Either one handler runs once and its result is the result, or no handler can be
reached and none is run. -/
inductive Dispatched (history : List (Registration (Handler σ))) (line : String) (w : World σ) (tokens : List String) :
    List Called → World σ × Outcome → Prop
  | ran {place entry inv} (reaches : Reaches history tokens place entry inv)
      (named : inv.command = entry.signature.name) (raw : inv.raw = tokens.tail) :
      Dispatched history line w tokens [⟨place,{ inv with line := line }⟩]
        (entry.content (ofHistory history).listing { inv with line := line } w)
  | refused {message} (unreached : ∀ place entry inv, ¬ Reaches history tokens place entry inv) :
      Dispatched history line w tokens [] (w,.fail message)

/-- The calls of a run. Where the handlers keep a record of them, the run comes to the same end with this record. -/
def Calls (history : List (Registration (Handler σ))) (w : World σ)
    (run : {τ : Type} → Catalog (Handler τ) → World τ → World τ × Outcome) (calls : List Called) : Prop :=
  run (ofHistory (recorded history)) (w.recording []) =
    ((run (ofHistory history) w).1.recording calls,(run (ofHistory history) w).2)

section
variable {tokens : List String} {inv : Invocation}

theorem Reaches.command_eq (reaches : Reaches history tokens place entry inv) : inv.command = entry.signature.name := by
  obtain ⟨_,bound⟩ := reaches
  exact Signature.command_of_bind bound

theorem Reaches.raw_eq (reaches : Reaches history tokens place entry inv) : inv.raw = tokens.tail := by
  obtain ⟨_,bound⟩ := reaches
  exact Signature.raw_of_bind bound

theorem Reaches.prepare (reaches : Reaches history tokens place entry inv) (line : String) :
    (ofHistory history).prepare tokens line = .ok (entry.content,{ inv with line := line }) := by
  obtain ⟨resolved,bound⟩ := reaches
  simp only [Catalog.prepare,find?_ofHistory.mpr ⟨place,resolved⟩,bound]

theorem Reaches.recorded (reaches : Reaches history tokens place entry inv) :
    Reaches (recorded history) tokens place ⟨entry.signature,entry.content.recorded place⟩ inv := by
  obtain ⟨resolved,bound⟩ := reaches
  exact ⟨resolved.recorded,bound⟩

theorem prepare_unreached (unreached : ∀ place entry inv, ¬ Reaches history tokens place entry inv) (line : String) :
    ∃ error, (ofHistory history).prepare tokens line = .error error ∧
      (ofHistory (recorded history)).prepare tokens line = .error error := by
  cases tokens with
  | nil => exact ⟨.empty,rfl,rfl⟩
  | cons name rest =>
    cases found : (ofHistory history).find? name with
    | none =>
      refine ⟨.unknownCommand name,?_,?_⟩
      · simp only [prepare,found]
      · simp only [prepare,find?_recorded_none found]
    | some entry =>
      obtain ⟨place,resolved⟩ := find?_ofHistory.mp found
      cases bound : entry.signature.bind rest with
      | ok inv => exact absurd ⟨resolved,bound⟩ (unreached place entry inv)
      | error error =>
        refine ⟨.binding error,?_,?_⟩
        · simp only [prepare,found,bound]
        · simp only [prepare,find?_ofHistory.mpr ⟨place,resolved.recorded⟩,bound]

end

theorem route_calls (history : List (Registration (Handler σ))) (w : World σ) (tokens : List String) :
    ∃ calls : List Called, ∀ line,
      Calls history w (fun catalog => catalog.route tokens line) (calls.map (Called.withLine line)) ∧
      Dispatched history line w tokens (calls.map (Called.withLine line)) ((ofHistory history).route tokens line w) := by
  by_cases reached : ∃ place entry inv, Reaches history tokens place entry inv
  · obtain ⟨place,entry,inv,reaches⟩ := reached
    refine ⟨[⟨place,inv⟩],fun line => ⟨?_,?_⟩⟩
    · simp only [Calls,route,reaches.prepare,reaches.recorded.prepare,listing_recorded]
      rfl
    · simp only [route,reaches.prepare]
      exact .ran reaches reaches.command_eq reaches.raw_eq
  · have unreached : ∀ place entry inv, ¬ Reaches history tokens place entry inv :=
      fun place entry inv reaches => reached ⟨place,entry,inv,reaches⟩
    refine ⟨[],fun line => ?_⟩
    obtain ⟨error,plain,beside⟩ := prepare_unreached unreached line
    refine ⟨?_,?_⟩
    · simp only [Calls,route,plain,beside]
      rfl
    · simp only [route,plain]
      exact .refused unreached

/-- After any registrations, a list of tokens has its command run once, with what the tokens are bound to, or nothing is
run and nothing happens. A line is dispatched as its tokens are, and its handler gets the line as it was typed. -/
theorem dispatch_once (history : List (Registration (Handler σ))) (w : World σ) :
    (∀ tokens, ∃ calls, Calls history w (fun catalog => catalog.dispatch tokens) calls ∧
      Dispatched history (" ".intercalate (tokens.drop 1)) w tokens calls ((ofHistory history).dispatch tokens w)) ∧
    ∀ line, ∃ calls : List Called, Calls history w (fun catalog => catalog.dispatch (Text.tokenize line)) calls ∧
      Calls history w (fun catalog => catalog.executeLine line) (calls.map (Called.withLine (remainder line))) ∧
      Dispatched history (remainder line) w (Text.tokenize line) (calls.map (Called.withLine (remainder line)))
        ((ofHistory history).executeLine line w) := by
  constructor
  · intro tokens
    obtain ⟨calls,routed⟩ := route_calls history w tokens
    exact ⟨_,routed _⟩
  · intro line
    obtain ⟨calls,routed⟩ := route_calls history w (Text.tokenize line)
    refine ⟨_,(routed (" ".intercalate ((Text.tokenize line).drop 1))).1,?_⟩
    have typed : (calls.map (Called.withLine (" ".intercalate ((Text.tokenize line).drop 1)))).map
        (Called.withLine (remainder line)) = calls.map (Called.withLine (remainder line)) := by
      rw [List.map_map]
      rfl
    rw [typed]
    exact routed (remainder line)

end Catalog
end TreeConsole
