import TreeConsole.Proofs.Session.Dispatch
import TreeConsole.Proofs.Session.Line

/-! The text behind a command.
A handler gets the tokens behind its command and, besides, the text behind the first word of the line. The two are found
in different ways, and a first word can open a quoted run that goes beyond it. The token of such a run holds a space, so
it is never a name without one: what a handler gets as text is cut into exactly the tokens that it gets.
-/
namespace TreeConsole
variable {α σ : Type}

/-- The name that a registration makes known. -/
def Registration.name : Registration α → String
  | .register signature _ => signature.name
  | .addAlias name _ => name

section
variable {registration : Registration α} {history : List (Registration α)} {name target : String} {entry : Entry α}
  {place : Nat}

theorem Registration.name_of_command? (found : registration.command? name = some entry) : registration.name = name := by
  cases registration with
  | addAlias => cases found
  | register => exact (Option.ite_none_right_eq_some.mp found).1

theorem Registration.name_of_target? (found : registration.target? name = some target) : registration.name = name := by
  cases registration with
  | register => cases found
  | addAlias => exact (Option.ite_none_right_eq_some.mp found).1

theorem Catalog.Resolves.registered (resolved : Resolves history name place entry) :
    ∃ registration ∈ history, registration.name = name := by
  cases resolved with
  | command last =>
    obtain ⟨registration,here,found⟩ := last.here
    exact ⟨registration,List.mem_of_getElem? here,Registration.name_of_command? found⟩
  | aliased _ leads _ =>
    obtain ⟨registration,here,found⟩ := leads.here
    exact ⟨registration,List.mem_of_getElem? here,Registration.name_of_target? found⟩

end

/-- An invocation has the text behind the first word of a line as it was typed, and the tokens of this text. -/
structure Invocation.Follows (inv : Invocation) (line : String) : Prop where
  typed : inv.line.toList <:+ Text.trim line.toList
  solid : ∀ c, inv.line.toList.head? = some c ∨ inv.line.toList.getLast? = some c → Text.isBlank c = false
  tokens : Text.tokenize inv.line = inv.raw

namespace Catalog
variable {history : List (Registration (Handler σ))} {line : String} {place : Nat} {entry : Entry (Handler σ)}
  {inv : Invocation}

theorem Dispatched.reached {w : World σ} {tokens : List String} {calls : List Called} {result : World σ × Outcome}
    (dispatched : Dispatched history line w tokens calls result) : ∀ called ∈ calls,
      ∃ entry inv, Reaches history tokens called.place entry inv ∧ called.invocation = { inv with line := line } := by
  cases dispatched with
  | refused => simp
  | ran reaches =>
    rw [List.forall_mem_singleton]
    exact ⟨_,_,reaches,rfl⟩

/-- What is reached by a name without a space follows the line. -/
theorem Reaches.follows (spaceless : ∀ registration ∈ history, ' ' ∉ registration.name.toList)
    (reaches : Reaches history (Text.tokenize line) place entry inv) :
    ({ inv with line := remainder line } : Invocation).Follows line := by
  refine ⟨remainder_suffix line,fun c => not_isBlank_of_remainder,?_⟩
  have raw : inv.raw = (Text.tokenize line).tail := reaches.raw_eq
  cases cut : Text.tokenize line with
  | nil =>
    rw [cut] at reaches
    cases reaches
  | cons name rest =>
    rw [cut] at reaches raw
    obtain ⟨resolved,_⟩ := reaches
    obtain ⟨registration,member,rfl⟩ := resolved.registered
    have tokens := tokenize_remainder (congrArg List.head? cut) (spaceless registration member)
    rw [cut] at tokens
    exact (List.tail_eq_of_cons_eq tokens).symm.trans raw.symm

/-- Where no command and no alias has a space in its name, every handler that a line reaches gets the end of the line from
behind its first word on, without blanks around it, and the tokens that this text is cut into. -/
theorem executeLine_follows (history : List (Registration (Handler σ)))
    (spaceless : ∀ registration ∈ history, ' ' ∉ registration.name.toList) (w : World σ) (line : String) :
    ∃ calls : List Called, Calls history w (fun catalog => catalog.executeLine line) calls ∧
      ∀ called ∈ calls, called.invocation.Follows line := by
  obtain ⟨calls,routed⟩ := route_calls history w (Text.tokenize line)
  obtain ⟨made,dispatched⟩ := routed (remainder line)
  refine ⟨_,made,fun called member => ?_⟩
  obtain ⟨entry,inv,reaches,same⟩ := dispatched.reached called member
  rw [same]
  exact reaches.follows spaceless

/-- A command that takes any tokens, and an alias of it. -/
def sayings : List (Registration (Handler Unit)) :=
  [.addAlias "say" "echo",
    .register ⟨"echo","","",[⟨"text","",[⟨.string,.zero,.zero,true⟩],[]⟩],[]⟩ fun _ inv w => (w,.succeed inv.line)]

/-- The command is written in quotes, between blanks of several kinds, and quotes stand behind it. -/
theorem executeLine_follows_quoted : (∀ registration ∈ sayings, ' ' ∉ registration.name.toList) ∧
    ∃ called : Called, Calls sayings ⟨⟨(),0,[]⟩,.initial⟩ (fun catalog => catalog.executeLine "\t'say'\n \"a  b\"  c ") [called] ∧
      called.invocation.Follows "\t'say'\n \"a  b\"  c " ∧
      called.invocation.line = "\"a  b\"  c" ∧ called.invocation.raw = ["a b","c"] := by
  have spaceless : ∀ registration ∈ sayings, ' ' ∉ registration.name.toList := by
    rw [sayings,List.forall_mem_cons,List.forall_mem_singleton]
    decide
  refine ⟨spaceless,?_⟩
  obtain ⟨calls,made,follows⟩ := executeLine_follows sayings spaceless ⟨⟨(),0,[]⟩,.initial⟩ "\t'say'\n \"a  b\"  c "
  have texts : calls.map (fun called => (called.invocation.line,called.invocation.raw)) = [("\"a  b\"  c",["a b","c"])] := by
    refine (congrArg (fun result => result.1.host.2.map fun called => (called.invocation.line,called.invocation.raw))
      made).symm.trans ?_
    decide +kernel
  obtain ⟨called,rfl,same⟩ := List.map_eq_singleton_iff.mp texts
  obtain ⟨line,raw⟩ := Prod.mk.inj same
  exact ⟨called,made,follows called (List.mem_singleton_self called),line,raw⟩

end Catalog
end TreeConsole
