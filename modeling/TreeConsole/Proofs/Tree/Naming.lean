import TreeConsole.Proofs.Tree.Path

/-! Names as paths.
A name that was accepted for a child is a path of one part, and from the parent it leads to the child, unless it starts
or ends in a blank character: such characters are kept in a name and are trimmed off a path.
-/
namespace TreeConsole.Tree
open Text
variable {t after : Tree} {id parent child : Handle} {name : String}

/-- Neither starts nor ends in a blank character. -/
def Solid (name : String) : Prop := ∀ c, name.toList.head? = some c ∨ name.toList.getLast? = some c → isBlank c = false

theorem solid_iff : Solid name ↔ trimmed name = name := by
  rw [Solid,← trim_eq_self_iff,trimmed,← String.toList_inj,String.toList_ofList]

theorem not_mem_trim {c : Char} {cs : List Char} (absent : c ∉ cs) : c ∉ trim cs := by
  have kept : trim cs <+: trimStart cs := trimEnd_eq_prefix _
  exact fun member => absent ((trimStart_eq_suffix cs).subset (kept.subset member))

/-- A path without a slash is one part. -/
theorem resolve_part (live : t.isLive id) (noSlash : '/' ∉ name.toList) :
    t.resolve id name = if trimmed name = "" then none else t.step id (trimmed name) := by
  have absent := not_mem_trim noSlash
  have empty : trimmed name = "" ↔ trim name.toList = [] := by
    rw [trimmed,← String.toList_inj,String.toList_ofList]
    rfl
  unfold resolve
  split
  next nothing => rw [if_pos (empty.mpr nothing)]
  next rest absolute => simp [absolute] at absent
  next parts some _ =>
    have followed := @follow_eq t id (trim name.toList) [] live (by simpa using absent)
    rw [List.flatMap_nil,List.append_nil] at followed
    have solid : (trim name.toList).isEmpty = false := by simpa using some
    rw [if_neg (fun nothing => some (empty.mp nothing)),followed]
    simp [solid,trimmed]

/-- From a node's parent, a path of one part leads to the node exactly when it is its name and nothing is trimmed off. -/
theorem WellFormed.resolve_name (wellFormed : t.WellFormed) (live : t.isLive child)
    (isParent : t.parent? child = some parent) : t.resolve parent (t.nameOf child) = some child ↔ Solid (t.nameOf child) := by
  have liveParent := wellFormed.parentLive child parent live isParent
  have proper := wellFormed.properNames child (lt_size_of_isLive live)
  rw [resolve_part liveParent proper.noSlash,solid_iff,← wellFormed.step_eq_some_iff live isParent]
  split
  next nothing =>
    have lost : t.step parent "" ≠ some child := fun found =>
      proper.nonempty ((wellFormed.step_eq_some_iff live isParent).mp found).symm
    simpa [nothing] using lost
  next => rfl

/-! Accepting names -/

theorem WellFormed.resolve_added (wellFormed : t.WellFormed) (added : t.addChild parent name = .ok (after,child)) :
    after.resolve parent name = some child ↔ Solid name := by
  obtain ⟨live,proper,unused,rfl,rfl⟩ := addChild_ok added
  have named : (t.sprout parent name).nameOf t.size = name := by rw [nameOf_sprout,if_pos rfl]
  have alive : (t.sprout parent name).isLive t.size := by simp [isLive_sprout]
  have below : (t.sprout parent name).parent? t.size = some parent := by rw [parent?_sprout,if_pos rfl]
  have resolved := (wellFormed.sprout live proper unused).resolve_name alive below
  rwa [named] at resolved

theorem invoke_rename_ok {v : Value} (ok : t.invoke id Method.rename.name [.string name] = (after,.ok v)) :
    ProperName name ∧ (∀ parent taken, t.parent? id = some parent → t.child? parent name = some taken → taken = id) ∧
      after = t.modify id fun node => { node with name := name } := by
  obtain ⟨node,known,found,lookup,performed⟩ := Update.exists_of_call (Update.outcome_eq_ok_iff.mp ok)
  rw [Method.ofName?_name,Option.some.injEq] at lookup
  subst lookup
  obtain ⟨_,isName,performed⟩ := Update.ofExcept_bind_eq_ok_iff.mp performed
  obtain ⟨_,_,renamed,left⟩ := Update.bind_eq_ok_iff.mp performed
  cases left
  rw [← Value.string.inj (stringArgument_ok isName)] at renamed
  rw [parent?_of_node? (liveNode?_eq_some_iff.mp found).1]
  exact Update.rename_ok renamed

theorem WellFormed.resolve_renamed (wellFormed : t.WellFormed) {v : Value} (live : t.isLive child)
    (isParent : t.parent? child = some parent) (renamed : t.invoke child "rename" [.string name] = (after,.ok v)) :
    after.resolve parent name = some child ↔ Solid name := by
  obtain ⟨proper,unused,rfl⟩ := invoke_rename_ok renamed
  have named : (t.modify child fun node => { node with name := name }).nameOf child = name :=
    (nameOf_modify_of (by intro _; rfl) (lt_size_of_isLive live)).trans (if_pos rfl)
  have alive : (t.modify child fun node => { node with name := name }).isLive child :=
    (isLive_modify (by intro _; rfl)).trans live
  have below : (t.modify child fun node => { node with name := name }).parent? child = some parent :=
    (parent?_modify (by intro _; rfl)).trans isParent
  have resolved := (wellFormed.rename live proper unused).resolve_name alive below
  rwa [named] at resolved

/-- In every reachable tree a name that was accepted for a child, when it was added or later, leads from the parent to the
child exactly when the name neither starts nor ends in a blank character. -/
theorem accepted_name_resolves (operations : List Operation) (parent : Handle) (name : String) (child : Handle)
    (after : Tree) :
    ((new.run operations).addChild parent name = .ok (after,child) →
      (after.resolve parent name = some child ↔ Solid name)) ∧
    ∀ v, (new.run operations).isLive child → (new.run operations).parent? child = some parent →
      (new.run operations).invoke child "rename" [.string name] = (after,.ok v) →
        (after.resolve parent name = some child ↔ Solid name) := by
  have wellFormed := wellFormed_run operations
  exact ⟨wellFormed.resolve_added,fun v live isParent renamed => wellFormed.resolve_renamed live isParent renamed⟩

def named : List Operation := [.addChild root "a"]

theorem accepted_name_resolves_inner :
    (∃ after, (new.run named).addChild root "b c" = .ok (after,2) ∧ after.resolve root "b c" = some 2) ∧
    ∃ after, (new.run named).invoke 1 "rename" [.string "b c"] = (after,.ok .null) ∧ after.resolve root "b c" = some 1 := by
  have solid : Solid "b c" := by
    rintro c (starts | last)
    · cases (show some 'b' = some c from starts)
      rfl
    · cases (show some 'c' = some c from last)
      rfl
  obtain ⟨added,_⟩ := accepted_name_resolves named root "b c" 2 _
  obtain ⟨_,renamed⟩ := accepted_name_resolves named root "b c" 1 _
  exact ⟨⟨_,rfl,(added rfl).mpr solid⟩,_,rfl,(renamed .null rfl rfl rfl).mpr solid⟩

/-- A name that starts with a blank is accepted beside the same name without it and leads to that sibling; a name of
nothing but a blank is accepted and leads nowhere. -/
theorem accepted_name_padded :
    (∃ after, (new.run named).addChild root " a" = .ok (after,2) ∧ after.resolve root " a" = some 1) ∧
    ∃ after, (new.run named).invoke 1 "rename" [.string " "] = (after,.ok .null) ∧ after.resolve root " " = none := by
  exact ⟨⟨_,rfl,by decide⟩,⟨_,rfl,by decide⟩⟩

end TreeConsole.Tree
