/-! Tables keyed by names.
The entries of a table stand in strictly increasing order of their keys, so a key occurs once and two
tables with the same look-ups are equal. `insert` replaces the entry of a key that is already there.
-/
namespace TreeConsole

structure Table (α : Type) where
  entries : List (String × α)
  ordered : entries.Pairwise fun first second => first.1 < second.1

namespace Table
variable {α β : Type}

def empty : Table α := ⟨[],.nil⟩

instance : Inhabited (Table α) := ⟨empty⟩

/-- Puts an entry at its place, over an older one with the same key. -/
def place (key : String) (value : α) : List (String × α) → List (String × α)
  | [] => [(key,value)]
  | entry :: rest =>
    if key < entry.1 then (key,value) :: entry :: rest
    else if key = entry.1 then (key,value) :: rest
    else entry :: place key value rest

theorem mem_place {key : String} {value : α} {entries : List (String × α)} {entry : String × α}
    (member : entry ∈ place key value entries) : entry = (key,value) ∨ entry ∈ entries := by
  induction entries with
  | nil => simpa [place] using member
  | cons first rest ih =>
    unfold place at member
    split at member
    · simpa using member
    · split at member
      · simp only [List.mem_cons] at member ⊢
        exact member.imp id .inr
      · simp only [List.mem_cons] at member ⊢
        rcases member with same | later
        · exact .inr (.inl same)
        · exact (ih later).imp id .inr

theorem lt_of_not_lt_of_ne {a b : String} (above : ¬ a < b) (different : a ≠ b) : b < a := by
  rcases Decidable.em (b < a) with below | level
  · exact below
  · exact absurd (String.le_antisymm level above) different

theorem place_ordered (key : String) (value : α) {entries : List (String × α)}
    (ordered : entries.Pairwise fun first second => first.1 < second.1) :
    (place key value entries).Pairwise fun first second => first.1 < second.1 := by
  induction entries with
  | nil => simp [place]
  | cons first rest ih =>
    obtain ⟨below,later⟩ := List.pairwise_cons.mp ordered
    unfold place
    split
    next before =>
      refine List.pairwise_cons.mpr ⟨?_,ordered⟩
      intro entry member
      rcases List.mem_cons.mp member with rfl | deeper
      · exact before
      · exact String.lt_trans before (below entry deeper)
    next notBefore =>
      split
      next same =>
        subst same
        exact List.pairwise_cons.mpr ⟨below,later⟩
      next different =>
        refine List.pairwise_cons.mpr ⟨?_,ih later⟩
        intro entry member
        rcases mem_place member with rfl | old
        · exact lt_of_not_lt_of_ne notBefore different
        · exact below entry old

def insert (table : Table α) (key : String) (value : α) : Table α :=
  ⟨place key value table.entries,place_ordered key value table.ordered⟩

def get? (table : Table α) (key : String) : Option α :=
  (table.entries.find? fun entry => entry.1 == key).map Prod.snd

def keys (table : Table α) : List String := table.entries.map Prod.fst

def values (table : Table α) : List α := table.entries.map Prod.snd

def size (table : Table α) : Nat := table.entries.length

def map (f : α → β) (table : Table α) : Table β :=
  ⟨table.entries.map fun entry => (entry.1,f entry.2),by simpa [List.pairwise_map] using table.ordered⟩

end Table
end TreeConsole
