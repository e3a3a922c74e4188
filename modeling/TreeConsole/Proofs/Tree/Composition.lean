import TreeConsole.Proofs.Focus.Destination
import TreeConsole.Proofs.Tree.Naming

/-! Paths put together.
A path leads to a live node or nowhere, and a path that goes on from another one with a slash leads where its second
part leads from where the first part does.
-/
namespace TreeConsole.Tree
open Text
variable {t : Tree} {id start : Handle} {path first second : String} {top parts cs front back : List Char}

/-! Following -/

theorem follow_nil (live : t.isLive id) : t.follow id [] = some id := by
  simp [follow,live,pieces]

/-- Where the first part of a path leads is live, so the second part is followed from there. -/
theorem WellFormed.follow_append (wellFormed : t.WellFormed) (front back : List Char) :
    t.follow id (front ++ '/' :: back) = (t.follow id front).bind fun middle => t.follow middle back := by
  by_cases live : t.isLive id
  · have cuts : pieces (· == '/') (front ++ '/' :: back) = pieces (· == '/') front ++ pieces (· == '/') back :=
      pieces_append_sep (beq_self_eq_true '/')
    unfold follow
    rw [if_pos live,if_pos live,cuts,List.filter_append,List.map_append,List.foldlM_append]
    refine Option.bind_congr fun middle reached => ?_
    rw [if_pos (wellFormed.isLive_of_foldlM live reached)]
  · simp [follow,live]

/-! Resolving -/

theorem resolve_top (spelled : trim path.toList = '/' :: top) (free : '/' ∉ top) :
    t.resolve start path = if t.name? root = some (String.ofList top) then t.follow root [] else none := by
  simp only [resolve,spelled,cut_eq_none free,Option.getD_none]

theorem resolve_below (spelled : trim path.toList = '/' :: (top ++ '/' :: parts)) (free : '/' ∉ top) :
    t.resolve start path = if t.name? root = some (String.ofList top) then t.follow root parts else none := by
  simp only [resolve,spelled,cut_append free,Option.getD_some]

theorem resolve_relative (spelled : trim path.toList = cs) (written : cs ≠ []) (relative : cs.head? ≠ some '/') :
    t.resolve start path = t.follow start cs := by
  unfold resolve
  split
  next nothing => exact absurd (spelled.symm.trans nothing) written
  next rest absolute =>
    rw [← spelled,absolute] at relative
    exact absurd rfl relative
  next => rw [spelled]

theorem trim_of_solid (solid : Solid path) : trim path.toList = path.toList := trim_eq_self_iff.mpr solid

theorem Solid.joined (startSolid : Solid first) (endSolid : Solid second) (written : first ≠ "") (more : second ≠ "") :
    Solid (first ++ "/" ++ second) := by
  intro c ends
  have front : first.toList ≠ [] := by simpa using written
  have back : second.toList ≠ [] := by simpa using more
  have spelled : (first ++ "/" ++ second).toList = first.toList ++ ("/".toList ++ second.toList) := by
    simp only [String.toList_append,List.append_assoc]
  rw [spelled,List.head?_append_of_ne_nil _ front,List.getLast?_append_of_ne_nil,
    List.getLast?_append_of_ne_nil _ back] at ends
  · exact ends.elim (fun starts => startSolid c (.inl starts)) fun last => endSolid c (.inr last)
  · simp

/-- A path from the top goes on below the root, whether or not its first part has anything behind the root's name. -/
theorem WellFormed.resolve_rooted_append (wellFormed : t.WellFormed) (spelled : trim path.toList = '/' :: front)
    (extended : trim first.toList = '/' :: (front ++ '/' :: back)) :
    t.resolve start first = (t.resolve start path).bind fun middle => t.follow middle back := by
  by_cases deeper : '/' ∈ front
  · obtain ⟨top,parts,rfl,free⟩ := List.eq_append_cons_of_mem deeper
    rw [List.append_assoc,List.cons_append] at extended
    rw [resolve_below spelled free,resolve_below extended free]
    split
    · exact wellFormed.follow_append parts back
    · rfl
  · rw [resolve_top spelled deeper,resolve_below extended deeper]
    split
    next named => rw [follow_nil (name?_eq_some_iff.mp named).1,Option.bind_some]
    next => rfl

theorem WellFormed.resolve_append (wellFormed : t.WellFormed) (written : first ≠ "") (more : second ≠ "")
    (startSolid : Solid first) (endSolid : Solid second) (relative : second.toList.head? ≠ some '/') :
    t.resolve start (first ++ "/" ++ second) = (t.resolve start first).bind fun middle => t.resolve middle second := by
  have back (middle : Handle) : t.resolve middle second = t.follow middle second.toList :=
    resolve_relative (trim_of_solid endSolid) (by simpa using more) relative
  have whole : trim (first ++ "/" ++ second).toList = first.toList ++ '/' :: second.toList := by
    rw [trim_of_solid (startSolid.joined endSolid written more)]
    simp
  have front := trim_of_solid startSolid
  have begun : first.toList ≠ [] := by simpa using written
  simp only [back]
  by_cases absolute : first.toList.head? = some '/'
  · obtain ⟨rest,spelled⟩ := List.head?_eq_some_iff.mp absolute
    rw [spelled] at whole
    exact wellFormed.resolve_rooted_append (front.trans spelled) whole
  · have outside : (first.toList ++ '/' :: second.toList).head? ≠ some '/' := by
      rwa [List.head?_append_of_ne_nil _ begun]
    rw [resolve_relative whole (by simp) outside,resolve_relative front begun absolute]
    exact wellFormed.follow_append first.toList second.toList

/-- In every reachable tree a path leads to live nodes only, and two paths that are not blank at their ends, the second
one not from the top, lead together where the second leads from where the first does. -/
theorem resolve_composes (operations : List Operation) (start : Handle) :
    (∀ path id, (new.run operations).resolve start path = some id → (new.run operations).isLive id) ∧
    ∀ first second, first ≠ "" → second ≠ "" → Solid first → Solid second → second.toList.head? ≠ some '/' →
      (new.run operations).resolve start (first ++ "/" ++ second) =
        ((new.run operations).resolve start first).bind fun middle => (new.run operations).resolve middle second := by
  have wellFormed := wellFormed_run operations
  constructor
  · intro path id reached
    exact wellFormed.isLive_of_resolve reached
  · intro first second written more startSolid endSolid relative
    exact wellFormed.resolve_append written more startSolid endSolid relative

def nested : List Operation := [.addChild root "a",.addChild 1 "b",.addChild 2 "c"]

theorem resolve_composes_winding :
    (new.run nested).isLive 3 ∧ (new.run nested).resolve 1 ("../a/" ++ "/" ++ "b/.//c") = some 3 ∧
      (new.run nested).resolve 1 ("/a" ++ "/" ++ "b") = none := by
  obtain ⟨living,composed⟩ := resolve_composes nested 1
  have up : (new.run nested).resolve 1 "../a/" = some 1 := by decide
  have lost : (new.run nested).resolve 1 "/a" = none := by decide
  have down : (new.run nested).resolve 1 "b/.//c" = some 3 := by decide
  refine ⟨living "b/.//c" 3 down,?_,?_⟩
  · rw [composed "../a/" "b/.//c" (by decide) (by decide) (solid_iff.mpr (by decide)) (solid_iff.mpr (by decide))
      (by decide),up]
    exact down
  · rw [composed "/a" "b" (by decide) (by decide) (solid_iff.mpr (by decide)) (solid_iff.mpr (by decide))
      (by decide),lost]
    rfl

end TreeConsole.Tree
