import TreeConsole.Focus
import TreeConsole.Proofs.Tree.Path
import TreeConsole.Tree.Method

/-! Where a path leads.
In a well-formed tree a path leads to live nodes only. A change of the target goes there, from the target if that is live,
and else, or failing that, from the root; it tells of itself by one notice, and a refused one leaves the target.
-/
namespace TreeConsole
open TreeConsole.Tree

/-- Where a path that is not blank leads: from the target if that is live, and else, or failing that, from the root. -/
structure Leads (t : Tree) (current : Handle) (path : String) (id : Handle) : Prop where
  written : Text.trimmed path ≠ ""
  found : t.isLive current ∧ t.resolve current (Text.trimmed path) = some id ∨
    (t.isLive current → t.resolve current (Text.trimmed path) = none) ∧ t.resolve root (Text.trimmed path) = some id

def refusal (path : String) : Rejection := if Text.trimmed path = "" then .invalidPath else .invalidTarget

/-- A change of the target with its single notice, or none at all and a notice of that. -/
inductive Selects (f : Focus Tree) (path : String) : Focus Tree × Except Rejection Handle → Prop
  | moved {id} (leads : Leads f.host f.current path id) (live : f.host.isLive id) :
      Selects f path (⟨f.host,id,f.notices ++ [.targetChanged id]⟩,.ok id)
  | refused (nowhere : ∀ id, ¬ Leads f.host f.current path id) :
      Selects f path (⟨f.host,f.current,f.notices ++ [.targetChangeFailed (refusal path)]⟩,.error (refusal path))

variable {t : Tree} {start current id other : Handle} {path : String} {f : Focus Tree}
variable {result : Focus Tree × Except Rejection Handle}

namespace Tree

theorem WellFormed.isLive_of_step (wellFormed : t.WellFormed) (live : t.isLive start) {part : String}
    (found : t.step start part = some id) : t.isLive id := by
  unfold step at found
  split at found
  · cases found
    exact live
  · obtain ⟨node,inside,isAbove⟩ := Option.bind_eq_some_iff.mp found
    have isParent := (parent?_of_node? (liveNode?_eq_some_iff.mp inside).1).trans isAbove
    exact wellFormed.parentLive start id live isParent
  · exact (wellFormed.child?_eq_some_iff.mp found).2.1

theorem WellFormed.isLive_of_foldlM (wellFormed : t.WellFormed) (live : t.isLive start) {parts : List String}
    (found : parts.foldlM t.step start = some id) : t.isLive id := by
  induction parts generalizing start with
  | nil =>
    cases found
    exact live
  | cons part rest ih =>
    rw [List.foldlM_cons] at found
    obtain ⟨next,stepped,walked⟩ := Option.bind_eq_some_iff.mp found
    exact ih (wellFormed.isLive_of_step live stepped) walked

theorem WellFormed.isLive_of_resolve (wellFormed : t.WellFormed) (found : t.resolve start path = some id) :
    t.isLive id := by
  have followed {top : Handle} {parts : List Char} (found : t.follow top parts = some id) : t.isLive id := by
    unfold follow at found
    split at found
    next live => exact wellFormed.isLive_of_foldlM live found
    next => cases found
  unfold resolve at found
  split at found
  · cases found
  · dsimp only at found
    split at found
    · exact followed found
    · cases found
  · exact followed found

theorem resolve_trimmed : t.resolve start (Text.trimmed path) = t.resolve start path := by
  unfold resolve
  rw [Text.trimmed,String.toList_ofList,Text.trim_trim]

theorem resolve_of_blank (blank : Text.trimmed path = "") : t.resolve start path = none := by
  rw [← resolve_trimmed,blank]
  rfl

theorem WellFormed.reach_eq (wellFormed : t.WellFormed) :
    Focus.reach Tree.host t start path = t.resolve start path := by
  have all (id : Handle) (found : t.resolve start path = some id) : t.isLive id := wellFormed.isLive_of_resolve found
  unfold Focus.reach
  dsimp only [Tree.host]
  cases found : t.resolve start path with
  | none => rfl
  | some id => exact Option.filter_some_pos (all id found)

theorem WellFormed.locate_eq_some_iff (wellFormed : f.host.WellFormed) (written : Text.trimmed path ≠ "") :
    f.locate Tree.host (Text.trimmed path) = some id ↔ Leads f.host f.current path id := by
  have origin : Tree.host.root f.host = root := rfl
  have alive : Tree.host.isLive f.host f.current = f.host.isLive f.current := rfl
  rw [Focus.locate,wellFormed.reach_eq,wellFormed.reach_eq,origin,alive]
  constructor
  · intro found
    refine ⟨written,?_⟩
    cases live : f.host.isLive f.current with
    | false =>
      rw [live,if_neg Bool.false_ne_true,Option.none_or] at found
      exact .inr ⟨fun live => absurd live Bool.false_ne_true,found⟩
    | true =>
      rw [live,if_pos rfl] at found
      rcases Option.or_eq_some_iff.mp found with ahead | ⟨missed,around⟩
      · exact .inl ⟨rfl,ahead⟩
      · exact .inr ⟨fun _ => missed,around⟩
  · rintro ⟨_,⟨live,ahead⟩ | ⟨missed,around⟩⟩
    · rw [if_pos live,ahead,Option.some_or]
    · by_cases live : f.host.isLive f.current = true
      · rw [if_pos live,missed live,Option.none_or,around]
      · rw [if_neg live,Option.none_or,around]

theorem WellFormed.isLive_of_leads (wellFormed : t.WellFormed) (leads : Leads t current path id) : t.isLive id := by
  rcases leads.found with ⟨_,ahead⟩ | ⟨_,around⟩
  · exact wellFormed.isLive_of_resolve ahead
  · exact wellFormed.isLive_of_resolve around

theorem WellFormed.select_selects (wellFormed : f.host.WellFormed) (path : String) :
    Selects f path (f.select Tree.host path) := by
  unfold Focus.select
  dsimp only
  split
  next blank =>
    have nothing : Text.trimmed path = "" := String.isEmpty_iff.mp blank
    have reason : refusal path = .invalidPath := if_pos nothing
    exact reason ▸ .refused fun _ leads => leads.written nothing
  next solid =>
    have written : Text.trimmed path ≠ "" := fun nothing => solid (String.isEmpty_iff.mpr nothing)
    split
    next id found =>
      have leads := (wellFormed.locate_eq_some_iff written).mp found
      exact .moved leads (wellFormed.isLive_of_leads leads)
    next missing =>
      have reason : refusal path = .invalidTarget := if_neg written
      refine reason ▸ .refused fun id leads => ?_
      exact Option.some_ne_none id (((wellFormed.locate_eq_some_iff written).mpr leads).symm.trans missing)

end Tree

theorem Leads.unique (leads : Leads t current path id) (also : Leads t current path other) : id = other := by
  rcases leads.found with ⟨live,ahead⟩ | ⟨missed,around⟩ <;> rcases also.found with ⟨live,straight⟩ | ⟨strayed,back⟩
  · exact Option.some_inj.mp (ahead.symm.trans straight)
  · exact absurd (ahead.symm.trans (strayed live)) (Option.some_ne_none id)
  · exact absurd (straight.symm.trans (missed live)) (Option.some_ne_none other)
  · exact Option.some_inj.mp (around.symm.trans back)

theorem Selects.eq_ok_iff (selects : Selects f path result) :
    result.2 = .ok id ↔ Leads f.host f.current path id := by
  cases selects with
  | moved leads =>
    constructor
    · intro same
      cases same
      exact leads
    · exact fun also => congrArg Except.ok (leads.unique also)
  | refused nowhere => exact ⟨(fun same => nomatch same),fun leads => absurd leads (nowhere id)⟩

theorem Selects.of_leads (selects : Selects f path result) (leads : Leads f.host f.current path id) :
    result = (⟨f.host,id,f.notices ++ [.targetChanged id]⟩,.ok id) := by
  cases selects with
  | moved also => rw [leads.unique also]
  | refused nowhere => exact absurd leads (nowhere id)

theorem Selects.of_nowhere (selects : Selects f path result) (nowhere : ∀ id, ¬ Leads f.host f.current path id) :
    result = f.reject (refusal path) := by
  cases selects with
  | moved leads => exact absurd leads (nowhere _)
  | refused => rfl

end TreeConsole
