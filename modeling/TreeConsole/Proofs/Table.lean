import TreeConsole.Proofs.Last
import TreeConsole.Signature.Binding
import Mathlib.Data.List.Sort

/-! Look-ups in tables.
A table is known by its look-ups, and entries put in one after the other are found again, the last of each key.
-/
namespace TreeConsole
namespace Table
variable {α β : Type} {table other : Table α} {key sought : String} {value : α} {entries : List (String × α)}

private theorem mem_iff_find? (ordered : entries.Pairwise fun first second => first.1 < second.1) :
    (key,value) ∈ entries ↔ (entries.find? fun entry => entry.1 == key).map Prod.snd = some value := by
  induction entries with
  | nil => simp
  | cons entry rest ih =>
    obtain ⟨below,later⟩ := List.pairwise_cons.mp ordered
    by_cases same : entry.1 = key
    · subst same
      -- The order keeps the key out of the rest.
      have absent : (entry.1,value) ∉ rest := fun member => String.lt_irrefl entry.1 (below (entry.1,value) member)
      simp [absent,Prod.ext_iff,eq_comm]
    · have unlike : (key,value) ≠ entry := fun equal => same (congrArg Prod.fst equal).symm
      rw [List.mem_cons,or_iff_right unlike,ih later,List.find?_cons_of_neg (by simpa using same)]

theorem mem_entries_iff : (key,value) ∈ table.entries ↔ table.get? key = some value :=
  mem_iff_find? table.ordered

theorem ext_get? (same : ∀ key, table.get? key = other.get? key) : table = other := by
  have members (entry : String × α) : entry ∈ table.entries ↔ entry ∈ other.entries := by
    obtain ⟨key,value⟩ := entry
    rw [mem_entries_iff,mem_entries_iff,same]
  have irreflexive : Std.Irrefl fun first second : String × α => first.1 < second.1 :=
    ⟨fun entry => String.lt_irrefl entry.1⟩
  have antisymmetric : Std.Antisymm fun first second : String × α => first.1 < second.1 :=
    ⟨fun a b below above => absurd above (String.lt_asymm below)⟩
  obtain ⟨entries,ordered⟩ := table
  obtain ⟨others,ordered'⟩ := other
  congr
  exact List.Pairwise.eq_of_mem_iff ordered ordered' members

private theorem find?_place : ((place key value entries).find? fun entry => entry.1 == sought).map Prod.snd =
    if sought = key then some value else (entries.find? fun entry => entry.1 == sought).map Prod.snd := by
  induction entries with
  | nil => by_cases same : sought = key <;> simp [place,same,Ne.symm]
  | cons entry rest ih =>
    unfold place
    split
    · by_cases same : sought = key
      · simp [same]
      · rw [List.find?_cons_of_neg (by simpa using Ne.symm same),if_neg same]
    · split
      next here =>
        subst here
        by_cases same : sought = entry.1
        · simp [same]
        · simp [same,Ne.symm same]
      next elsewhere =>
        by_cases here : entry.1 = sought
        · simp [here,show sought ≠ key from fun same => elsewhere (here.trans same).symm]
        · rw [List.find?_cons_of_neg (by simpa using here),ih,List.find?_cons_of_neg (by simpa using here)]

theorem get?_insert : (table.insert key value).get? sought = if sought = key then some value else table.get? sought :=
  find?_place

theorem get?_insert_or : (table.insert key value).get? sought =
    (if key = sought then some value else none).or (table.get? sought) := by
  rw [get?_insert]
  by_cases same : key = sought
  · rw [if_pos same.symm,if_pos same,Option.some_or]
  · rw [if_neg (Ne.symm same),if_neg same,Option.none_or]

theorem mem_keys_iff : key ∈ table.keys ↔ ∃ value, table.get? key = some value := by
  simp only [keys,List.mem_map,Prod.exists,exists_and_right,exists_eq_right,mem_entries_iff]

theorem mem_keys_insert : sought ∈ (table.insert key value).keys ↔ sought = key ∨ sought ∈ table.keys := by
  rw [mem_keys_iff,mem_keys_iff,get?_insert]
  by_cases same : sought = key
  · simp [same]
  · simp [same]

private theorem map_place (f : α → β) : ((place key value entries).map fun entry => (entry.1,f entry.2)) =
    place key (f value) (entries.map fun entry => (entry.1,f entry.2)) := by
  induction entries with
  | nil => rfl
  | cons entry rest ih =>
    simp only [place,List.map_cons]
    split
    · rfl
    · split
      · rfl
      · rw [List.map_cons,ih]

theorem map_insert (f : α → β) : (table.insert key value).map f = (table.map f).insert key (f value) := by
  simp only [Table.map,insert,map_place]

theorem keys_ordered (table : Table α) : table.keys.Pairwise (· < ·) := by
  rw [keys,List.pairwise_map]
  exact table.ordered

theorem get?_eq_none_iff : table.get? key = none ↔ key ∉ table.keys := by
  rw [mem_keys_iff,not_exists,Option.eq_none_iff_forall_ne_some]

/-- Tables in which the same keys are missing list the same keys, whatever is found under them. -/
theorem keys_congr {second : Table β} (same : ∀ key, table.get? key = none ↔ second.get? key = none) :
    table.keys = second.keys := by
  simp only [get?_eq_none_iff,not_iff_not] at same
  have irreflexive : Std.Irrefl fun first second : String => first < second := ⟨String.lt_irrefl⟩
  have antisymmetric : Std.Antisymm fun first second : String => first < second :=
    ⟨fun a b below above => absurd above (String.lt_asymm below)⟩
  exact List.Pairwise.eq_of_mem_iff table.keys_ordered second.keys_ordered fun {key} => same key

theorem get?_map (f : α → β) : (table.map f).get? key = (table.get? key).map f := by
  simp only [get?,Table.map,List.find?_map,Option.map_map]
  rfl

end Table

/-- The last entry of a key decides what is found there, and what was there before where there is none. -/
theorem Signature.get?_tabulate (start : Table Value) (entries : List (String × Value)) (key : String) :
    (tabulate start entries).get? key =
      ((entries.filter fun entry => entry.1 == key).getLast?.map Prod.snd).or (start.get? key) := by
  have found : (entries.filterMap fun entry => if entry.1 = key then some entry.2 else none) =
      (entries.filter fun entry => entry.1 == key).map Prod.snd := by
    rw [← List.filterMap_eq_map,List.filterMap_filter]
    simp
  have each (table : Table Value) (entry : String × Value) : (table.insert entry.1 entry.2).get? key =
      (if entry.1 = key then some entry.2 else none).or (table.get? key) := Table.get?_insert_or
  rw [← List.getLast?_map,← found]
  exact look_foldl (fun table : Table Value => table.get? key) each start

/-- The entry of a key that occurs once is found under it. -/
theorem Signature.get?_tabulate_of_mem {entries : List (String × Value)} {key : String} {v : Value}
    (distinct : (entries.map Prod.fst).Nodup) (member : (key,v) ∈ entries) (start : Table Value) :
    (tabulate start entries).get? key = some v := by
  have alone : ∀ entry ∈ entries.filter fun entry => entry.1 == key, entry = (key,v) := by
    intro entry inside
    rw [List.mem_filter] at inside
    exact List.inj_on_of_nodup_map distinct inside.1 member (beq_iff_eq.mp inside.2)
  have present : (key,v) ∈ entries.filter fun entry => entry.1 == key := List.mem_filter.mpr ⟨member,beq_self_eq_true key⟩
  obtain ⟨last,found⟩ := Option.ne_none_iff_exists'.mp (mt List.getLast?_eq_none_iff.mp (List.ne_nil_of_mem present))
  rw [get?_tabulate,found,alone last (List.mem_of_getLast? found)]
  rfl

theorem Signature.mem_keys_tabulate {entries : List (String × Value)} {key : String} (start : Table Value) :
    key ∈ (tabulate start entries).keys ↔ key ∈ entries.map Prod.fst ∨ key ∈ start.keys := by
  induction entries generalizing start with
  | nil => simp [tabulate]
  | cons entry rest ih =>
    have step : tabulate start (entry :: rest) = tabulate (start.insert entry.1 entry.2) rest := rfl
    rw [step,ih,Table.mem_keys_insert,List.map_cons,List.mem_cons,or_left_comm,or_assoc]

end TreeConsole
