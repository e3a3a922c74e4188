import TreeConsole.Proofs.Catalog.History
import TreeConsole.Proofs.Session.Delegation
import Mathlib.Tactic.Tauto

/-! What catalogs list.
A catalog keeps its commands and aliases under their names, so its listings are read off the registrations: each name once,
in the order of the names, with what it was given last. A listing is also what sorting makes of the same entries in any
other order.
-/
namespace TreeConsole
variable {α : Type} {σ : Type}

/-- What a catalog lists after these registrations. -/
structure Catalog.Lists (history : List (Registration α)) (catalog : Catalog α) : Prop where
  ordered : (catalog.signatures.map Signature.name).Pairwise (· < ·)
  latest : ∀ signature, signature ∈ catalog.signatures ↔
    ∃ place content, LastAt (Registration.command? signature.name) history place ⟨signature,content⟩
  complete : ∀ name, name ∈ catalog.signatures.map Signature.name ↔
    ∃ signature content, .register signature content ∈ history ∧ signature.name = name
  size : catalog.size = catalog.signatures.length
  sorted : ∀ entries : List (String × Entry α), entries.Perm catalog.commands.entries →
    (entries.map fun entry => entry.2.signature).mergeSort (fun first second => first.name ≤ second.name) =
      catalog.signatures
  aliasesOrdered : ∀ command, (catalog.aliasesOf command).Pairwise (· < ·)
  aliasesLatest : ∀ command name, name ∈ catalog.aliasesOf command ↔
    ∃ place, LastAt (Registration.target? name) history place command
  aliasOnce : ∀ name target, .addAlias name target ∈ history → ∃! command, name ∈ catalog.aliasesOf command
  aliasesSorted : ∀ (entries : List (String × String)) command, entries.Perm catalog.aliases.entries →
    ((entries.filter fun entry => entry.2 == command).map Prod.fst).mergeSort (fun first second => first ≤ second) =
      catalog.aliasesOf command
  contained : ∀ name, catalog.contains name ↔ name ∈ catalog.signatures.map Signature.name ∨
    ∃ place target, LastAt (Registration.target? name) history place target ∧
      target ∈ catalog.signatures.map Signature.name

/-- What a table of variables lists after these were registered. -/
structure Variables.Lists (registered : List (Entry (Handler σ))) (known : Variables σ) : Prop where
  latest : ∀ key entry, known.get? key = some entry ↔ ∃ place, LastAt (Entry.named? key) registered place entry
  ordered : known.keys.Pairwise (· < ·)
  complete : ∀ key, key ∈ known.keys ↔ ∃ entry ∈ registered, entry.signature.name = key
  size : known.size = known.keys.length

/-! Sorting -/

/-- A list in the order of its names is what sorting by name makes of its items in any order. -/
theorem mergeSort_eq_of_perm {name : α → String} {items listed : List α} (perm : items.Perm listed)
    (ordered : (listed.map name).Pairwise (· < ·)) :
    items.mergeSort (fun first second => name first ≤ name second) = listed := by
  have distinct : (listed.map name).Nodup := ordered.imp String.ne_of_lt
  have same := (List.mergeSort_perm items fun first second => name first ≤ name second).trans perm
  refine @List.Perm.eq_of_pairwise _ (fun first second => name first ≤ name second) _ _ ?_ ?_ ?_ same
  · intro first second here there below above
    exact List.inj_on_of_nodup_map distinct (same.subset here) there (String.le_antisymm below above)
  · have sorted := @List.pairwise_mergeSort α (fun first second => decide (name first ≤ name second))
      (fun first second third => by simpa using String.le_trans) (fun first second => by simpa using String.le_total _ _) items
    simpa using sorted
  · rw [List.pairwise_map] at ordered
    exact ordered.imp fun below => String.not_lt.mp (String.lt_asymm below)

namespace Catalog
variable {history : List (Registration α)} {name command : String} {signature : Signature}

theorem name_of_get? {entry : Entry α} (found : (ofHistory history).commands.get? name = some entry) :
    entry.signature.name = name := by
  obtain ⟨place,⟨registration,_,finds⟩,_⟩ := get?_commands_ofHistory.mp found
  cases registration with
  | addAlias => cases finds
  | register signature content =>
    obtain ⟨same,made⟩ := Option.ite_none_right_eq_some.mp finds
    cases made
    exact same

/-- Every command is kept under the name of its signature. -/
theorem names_ofHistory : (ofHistory history).signatures.map Signature.name = (ofHistory history).commands.keys := by
  rw [signatures,Table.values,List.map_map,List.map_map]
  exact List.map_congr_left fun entry member => name_of_get? (Table.mem_entries_iff.mp member)

theorem mem_signatures_ofHistory : signature ∈ (ofHistory history).signatures ↔
    ∃ place content, LastAt (Registration.command? signature.name) history place ⟨signature,content⟩ := by
  simp only [exists_comm (α := Nat),← get?_commands_ofHistory,← Table.mem_entries_iff]
  simp only [signatures,Table.values,List.map_map,List.mem_map,Prod.exists,Function.comp_apply]
  constructor
  · rintro ⟨key,⟨signature,content⟩,member,rfl⟩
    obtain rfl := name_of_get? (Table.mem_entries_iff.mp member)
    exact ⟨content,member⟩
  · rintro ⟨content,member⟩
    exact ⟨_,_,member,rfl⟩

theorem mem_names_ofHistory : name ∈ (ofHistory history).signatures.map Signature.name ↔
    ∃ signature content, .register signature content ∈ history ∧ signature.name = name := by
  have absent := @unnamed_iff α history name
  rw [Table.get?_eq_none_iff,← names_ofHistory] at absent
  rw [← not_iff_not,absent]
  constructor
  · rintro unnamed ⟨signature,content,member,named⟩
    have nothing := unnamed _ member
    simp [Registration.command?,named] at nothing
  · rintro never (⟨signature,content⟩ | _) member
    · exact if_neg fun named => never ⟨signature,content,member,named⟩
    · rfl

theorem mem_aliasesOf (catalog : Catalog α) : name ∈ catalog.aliasesOf command ↔ catalog.aliases.get? name = some command := by
  simp [aliasesOf,← Table.mem_entries_iff]

theorem aliasesOf_ordered (catalog : Catalog α) (command : String) : (catalog.aliasesOf command).Pairwise (· < ·) :=
  catalog.aliases.keys_ordered.sublist (List.filter_sublist.map Prod.fst)

theorem exists_target (given : .addAlias name command ∈ history) :
    ∃ target, (ofHistory history).aliases.get? name = some target := by
  rw [← Option.ne_none_iff_exists']
  intro never
  have untold := ((look_foldl_eq_none_iff (fun catalog : Catalog α => catalog.aliases.get? name) (get?_aliases_enter name)
    empty).mp never).1 _ given
  simp [Registration.target?] at untold

theorem contains_iff (catalog : Catalog α) : catalog.contains name ↔ name ∈ catalog.commands.keys ∨
    ∃ target, catalog.aliases.get? name = some target ∧ target ∈ catalog.commands.keys := by
  simp only [contains,find?,Option.isSome_or,Bool.or_eq_true,Option.isSome_iff_exists,Option.bind_eq_some_iff,
    Table.mem_keys_iff]
  tauto

theorem ofHistory_lists (history : List (Registration α)) : Lists history (ofHistory history) where
  ordered := by
    rw [names_ofHistory]
    exact Table.keys_ordered _
  latest := fun _ => mem_signatures_ofHistory
  complete := fun _ => mem_names_ofHistory
  size := by simp [size,signatures,Table.size,Table.values]
  sorted := by
    intro entries perm
    refine mergeSort_eq_of_perm ?_ (names_ofHistory ▸ Table.keys_ordered _)
    rw [signatures,Table.values,List.map_map]
    exact perm.map _
  aliasesOrdered := aliasesOf_ordered _
  aliasesLatest := by
    intro command name
    rw [mem_aliasesOf,get?_aliases_ofHistory]
  aliasOnce := by
    intro name target given
    obtain ⟨last,found⟩ := exists_target given
    refine ⟨last,(mem_aliasesOf _).mpr found,fun other listed => ?_⟩
    exact Option.some.inj (((mem_aliasesOf _).mp listed).symm.trans found)
  aliasesSorted := by
    intro entries command perm
    refine @mergeSort_eq_of_perm _ id _ _ ((perm.filter _).map _) ?_
    rw [List.map_id]
    exact aliasesOf_ordered _ command
  contained := by
    intro name
    rw [contains_iff,names_ofHistory]
    simp only [get?_aliases_ofHistory]
    tauto

end Catalog

theorem Variables.ofEntries_lists (registered : List (Entry (Handler σ))) : Lists registered (ofEntries registered) where
  latest := fun _ _ => get?_ofEntries
  ordered := Table.keys_ordered _
  complete := fun _ => mem_keys_ofEntries
  size := (List.length_map _).symm

/-- Whatever was registered, in any order and over older entries, the listings of a catalog and of its variables are exact. -/
theorem listings_exact (history : List (Registration α)) (registered : List (Entry (Handler σ))) :
    (Catalog.ofHistory history).Lists history ∧ (Variables.ofEntries registered).Lists registered :=
  ⟨Catalog.ofHistory_lists history,Variables.ofEntries_lists registered⟩

end TreeConsole
