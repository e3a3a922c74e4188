import Mathlib.Data.List.Basic

/-! The last of its kind.
What a list of events leaves behind is often decided by the last event in which something is found. This is said with the
place of the event, or with the list of all that is found; and it holds of whatever is put in one after the other and looked
up again.
-/
namespace TreeConsole
variable {α β γ δ : Type}

/-- The last place of a list where something is found. -/
structure LastAt (find : α → Option β) (items : List α) (place : Nat) (found : β) : Prop where
  here : ∃ item, items[place]? = some item ∧ find item = some found
  last : ∀ later item, place < later → items[later]? = some item → find item = none

variable {find : α → Option β} {items : List α} {item : α} {place : Nat} {found : β}

theorem lastAt_zero : LastAt find (item :: items) 0 found ↔
    find item = some found ∧ ∀ later ∈ items, find later = none := by
  constructor
  · rintro ⟨⟨first,here,finds⟩,last⟩
    obtain rfl : item = first := Option.some.inj here
    refine ⟨finds,fun later member => ?_⟩
    obtain ⟨place,inside⟩ := List.mem_iff_getElem?.mp member
    exact last (place + 1) later (Nat.succ_pos place) inside
  · rintro ⟨finds,last⟩
    refine ⟨⟨item,rfl,finds⟩,fun place later beyond inside => ?_⟩
    obtain ⟨before,rfl⟩ := Nat.exists_eq_add_one.mpr beyond
    exact last later (List.mem_of_getElem? inside)

theorem lastAt_succ : LastAt find (item :: items) (place + 1) found ↔ LastAt find items place found := by
  constructor
  · rintro ⟨here,last⟩
    exact ⟨here,fun later other beyond inside => last (later + 1) other (Nat.succ_lt_succ beyond) inside⟩
  · rintro ⟨here,last⟩
    refine ⟨here,fun later other beyond inside => ?_⟩
    obtain ⟨before,rfl⟩ := Nat.exists_eq_add_one.mpr (Nat.zero_lt_of_lt beyond)
    exact last before other (Nat.lt_of_succ_lt_succ beyond) inside

theorem exists_lastAt_cons : (∃ place, LastAt find (item :: items) place found) ↔
    (∃ place, LastAt find items place found) ∨ (∀ later ∈ items, find later = none) ∧ find item = some found := by
  constructor
  · rintro ⟨place,last⟩
    cases place with
    | zero => exact .inr (lastAt_zero.mp last).symm
    | succ place => exact .inl ⟨place,lastAt_succ.mp last⟩
  · rintro (⟨place,last⟩ | ⟨last,finds⟩)
    · exact ⟨place + 1,lastAt_succ.mpr last⟩
    · exact ⟨0,lastAt_zero.mpr ⟨finds,last⟩⟩

theorem LastAt.mapIdx {seek : γ → Option δ} (last : LastAt find items place found) (change : Nat → α → γ)
    (image : Nat → β → δ) (each : ∀ place item, seek (change place item) = (find item).map (image place)) :
    LastAt seek (items.mapIdx change) place (image place found) := by
  obtain ⟨⟨item,inside,finds⟩,last⟩ := last
  refine ⟨⟨change place item,by rw [List.getElem?_mapIdx,inside,Option.map_some],?_⟩,?_⟩
  · rw [each,finds,Option.map_some]
  · intro later changed beyond there
    rw [List.getElem?_mapIdx] at there
    obtain ⟨other,original,rfl⟩ := Option.map_eq_some_iff.mp there
    rw [each,last later other beyond original,Option.map_none]

/-! All that is found -/

theorem getLast?_filterMap_cons (find : α → Option β) (item : α) (items : List α) :
    ((item :: items).filterMap find).getLast? = ((items.filterMap find).getLast?).or (find item) := by
  rw [List.filterMap_cons]
  cases find item with
  | none => exact Option.or_none.symm
  | some found =>
    rw [List.getLast?_cons]
    cases (items.filterMap find).getLast? <;> rfl

theorem getLast?_filterMap_eq_none_iff : (items.filterMap find).getLast? = none ↔ ∀ item ∈ items, find item = none := by
  rw [List.getLast?_eq_none_iff,List.filterMap_eq_nil_iff]

theorem getLast?_filterMap_eq_some_iff :
    (items.filterMap find).getLast? = some found ↔ ∃ place, LastAt find items place found := by
  induction items with
  | nil =>
    have never : ¬ ∃ place, LastAt find [] place found := by
      rintro ⟨place,⟨item,inside,_⟩,_⟩
      cases inside
    exact iff_of_false nofun never
  | cons item rest ih =>
    rw [getLast?_filterMap_cons,Option.or_eq_some_iff,ih,getLast?_filterMap_eq_none_iff,exists_lastAt_cons]

/-! Looking up what was put in -/

section
variable {step : γ → α → γ} (look : γ → Option β)
  (each : ∀ state item, look (step state item) = (find item).or (look state)) (start : γ)

include each

/-- Where each step is looked up before all that came before it, the last step that is found decides. -/
theorem look_foldl : look (items.foldl step start) = ((items.filterMap find).getLast?).or (look start) := by
  induction items generalizing start with
  | nil => rfl
  | cons item rest ih => rw [List.foldl_cons,ih,each,getLast?_filterMap_cons,Option.or_assoc]

theorem look_foldl_eq_some_iff : look (items.foldl step start) = some found ↔
    (∃ place, LastAt find items place found) ∨ (∀ item ∈ items, find item = none) ∧ look start = some found := by
  rw [look_foldl look each,Option.or_eq_some_iff,getLast?_filterMap_eq_some_iff,getLast?_filterMap_eq_none_iff]

theorem look_foldl_eq_none_iff :
    look (items.foldl step start) = none ↔ (∀ item ∈ items, find item = none) ∧ look start = none := by
  rw [look_foldl look each,Option.or_eq_none_iff,getLast?_filterMap_eq_none_iff]

end

end TreeConsole
