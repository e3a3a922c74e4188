import TreeConsole.Catalog
import TreeConsole.Proofs.Last
import TreeConsole.Proofs.Table

/-! Histories of catalogs.
A catalog is filled by registrations of commands and of aliases, in any order, over older ones or before what they
lead to. What is found under a name is read off the history alone: the last command of this name or, where no command
ever had it, the last command of the name that the alias was last given.
-/
namespace TreeConsole
variable {α β : Type}

inductive Registration (α : Type) where
  | register (signature : Signature) (content : α)
  | addAlias (name target : String)

namespace Registration

def map (f : α → β) : Registration α → Registration β
  | .register signature content => .register signature (f content)
  | .addAlias name target => .addAlias name target

def command? (name : String) : Registration α → Option (Entry α)
  | .register signature content => if signature.name = name then some ⟨signature,content⟩ else none
  | .addAlias .. => none

def target? (name : String) : Registration α → Option String
  | .register .. => none
  | .addAlias other target => if other = name then some target else none

@[simp]
theorem command?_map (f : α → β) (name : String) (registration : Registration α) :
    (registration.map f).command? name = (registration.command? name).map fun entry => ⟨entry.signature,f entry.content⟩ := by
  cases registration with
  | addAlias => rfl
  | register signature content => by_cases same : signature.name = name <;> simp [map,command?,same]

@[simp]
theorem target?_map (f : α → β) (name : String) (registration : Registration α) :
    (registration.map f).target? name = registration.target? name := by cases registration <;> rfl

end Registration

namespace Catalog

def enter (catalog : Catalog α) : Registration α → Catalog α
  | .register signature content => catalog.register signature content
  | .addAlias name target => catalog.addAlias name target

def ofHistory (history : List (Registration α)) : Catalog α := history.foldl enter .empty

end Catalog

namespace Catalog
variable {history : List (Registration α)} {name : String} {entry : Entry α}

theorem get?_commands_enter (name : String) (catalog : Catalog α) (registration : Registration α) :
    (catalog.enter registration).commands.get? name = (registration.command? name).or (catalog.commands.get? name) := by
  cases registration with
  | addAlias => rfl
  | register signature content => exact Table.get?_insert_or

theorem get?_aliases_enter (name : String) (catalog : Catalog α) (registration : Registration α) :
    (catalog.enter registration).aliases.get? name = (registration.target? name).or (catalog.aliases.get? name) := by
  cases registration with
  | register => rfl
  | addAlias other target => exact Table.get?_insert_or

theorem get?_commands_ofHistory : (ofHistory history).commands.get? name = some entry ↔
    ∃ place, LastAt (Registration.command? name) history place entry :=
  (look_foldl_eq_some_iff (fun catalog : Catalog α => catalog.commands.get? name) (get?_commands_enter name) empty).trans
    (or_iff_left fun both => Option.some_ne_none _ both.2.symm)

theorem get?_aliases_ofHistory {target : String} : (ofHistory history).aliases.get? name = some target ↔
    ∃ place, LastAt (Registration.target? name) history place target :=
  (look_foldl_eq_some_iff (fun catalog : Catalog α => catalog.aliases.get? name) (get?_aliases_enter name) empty).trans
    (or_iff_left fun both => Option.some_ne_none _ both.2.symm)

/-- What a name stands for: the command that was registered last under it, and only if there never was one, the command
that was registered last under the last target of this alias. A target is no alias again. -/
inductive Resolves (history : List (Registration α)) (name : String) : Nat → Entry α → Prop
  | command {place entry} (last : LastAt (Registration.command? name) history place entry) :
      Resolves history name place entry
  | aliased {given target place entry} (unnamed : ∀ registration ∈ history, registration.command? name = none)
      (leads : LastAt (Registration.target? name) history given target)
      (last : LastAt (Registration.command? target) history place entry) : Resolves history name place entry

theorem unnamed_iff : (ofHistory history).commands.get? name = none ↔
    ∀ registration ∈ history, registration.command? name = none :=
  (look_foldl_eq_none_iff (fun catalog : Catalog α => catalog.commands.get? name) (get?_commands_enter name) empty).trans
    (and_iff_left rfl)

theorem find?_ofHistory : (ofHistory history).find? name = some entry ↔ ∃ place, Resolves history name place entry := by
  rw [find?,Option.or_eq_some_iff,get?_commands_ofHistory,Option.bind_eq_some_iff,unnamed_iff]
  constructor
  · rintro (⟨place,last⟩ | ⟨unnamed,target,leads,last⟩)
    · exact ⟨place,.command last⟩
    · obtain ⟨given,leads⟩ := get?_aliases_ofHistory.mp leads
      obtain ⟨place,last⟩ := get?_commands_ofHistory.mp last
      exact ⟨place,.aliased unnamed leads last⟩
  · rintro ⟨place,last | ⟨unnamed,leads,last⟩⟩
    · exact .inl ⟨place,last⟩
    · exact .inr ⟨unnamed,_,get?_aliases_ofHistory.mpr ⟨_,leads⟩,get?_commands_ofHistory.mpr ⟨place,last⟩⟩

/-! The signatures alone -/

theorem find?_listing (catalog : Catalog α) :
    catalog.listing.find? name = (catalog.find? name).map fun entry => ⟨entry.signature,()⟩ := by
  simp only [find?,listing,Table.get?_map]
  cases catalog.commands.get? name with
  | some entry => rfl
  | none =>
    cases catalog.aliases.get? name with
    | none => rfl
    | some target => simp

theorem listing_enter (catalog : Catalog α) (registration : Registration α) :
    (catalog.enter registration).listing = catalog.listing.enter (registration.map fun _ => ()) := by
  cases registration with
  | addAlias => rfl
  | register signature content => simp only [enter,register,listing,Registration.map,Table.map_insert]

theorem listing_ofHistory (history : List (Registration α)) :
    (ofHistory history).listing = ofHistory (history.map (Registration.map fun _ => ())) := by
  rw [ofHistory,ofHistory,List.foldl_map]
  exact (List.foldl_hom listing fun catalog registration => (listing_enter catalog registration).symm).symm

end Catalog
end TreeConsole
