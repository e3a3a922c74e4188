import TreeConsole.Text.Split
import Mathlib.Data.List.DropRight
import Mathlib.Data.List.TakeDrop
import Mathlib.Data.List.TakeWhile

/-! Pieces and trimming of composed texts.
What the cutting and trimming functions find in a text that was put together from parts.
-/
namespace TreeConsole.Text
variable {sep : Char → Bool} {c : Char} {cs before after : List Char}

theorem pieces_of_free (free : ∀ d ∈ cs, sep d = false) : pieces sep cs = [cs] := by
  induction cs with
  | nil => rfl
  | cons d rest ih =>
    have tail : pieces sep rest = [rest] := ih fun e member => free e (by simp [member])
    simp [pieces,free d (by simp),tail]

/-- A separator cuts a text into what stands before and behind it. -/
theorem pieces_append_sep (isSep : sep c = true) :
    pieces sep (before ++ c :: after) = pieces sep before ++ pieces sep after := by
  induction before with
  | nil => simp [pieces,isSep]
  | cons d rest ih =>
    simp only [List.cons_append,pieces,ih]
    split
    · rfl
    · cases found : pieces sep rest with
      | nil => exact absurd found (pieces_ne_nil sep rest)
      | cons first more => rfl

theorem pieces_append_cons (free : ∀ d ∈ before, sep d = false) (isSep : sep c = true) :
    pieces sep (before ++ c :: after) = before :: pieces sep after := by
  rw [pieces_append_sep isSep,pieces_of_free free,List.singleton_append]

theorem beq_eq_false_of_not_mem (absent : c ∉ cs) : ∀ d ∈ cs, (d == c) = false :=
  fun _ member => beq_eq_false_iff_ne.mpr fun same => absent (same ▸ member)

/-- Parts that are free of the separator are found again behind it. -/
theorem pieces_flatMap {first : List Char} {more : List (List Char)} (free : ∀ part ∈ first :: more, c ∉ part) :
    pieces (· == c) (first ++ more.flatMap (c :: ·)) = first :: more := by
  induction more generalizing first with
  | nil => simpa using pieces_of_free (beq_eq_false_of_not_mem (free first (by simp)))
  | cons second rest ih =>
    have tail := @ih second fun part member => free part (by simp_all)
    rw [List.flatMap_cons,List.cons_append,pieces_append_cons (beq_eq_false_of_not_mem (free first (by simp)))
      (beq_self_eq_true c),tail]

theorem cut_eq_none (absent : c ∉ cs) : cut c cs = none := by
  induction cs with
  | nil => rfl
  | cons d rest ih =>
    simp only [List.mem_cons,not_or] at absent
    simp [cut,Ne.symm absent.1,ih absent.2]

theorem cutText_eq_none {more : List Char} (absent : c ∉ cs) : cutText c more cs = none := by
  induction cs with
  | nil => rfl
  | cons d rest ih =>
    rw [List.mem_cons,not_or] at absent
    have starts : (c :: more).isPrefixOf (d :: rest) = false := by simp [List.isPrefixOf,absent.1]
    rw [cutText,starts,ih absent.2]
    rfl

/-- A solid text without the separator is its only piece. -/
theorem splitClean_whole {text separator : String} {more : List Char} (word : separator.toList = c :: more)
    (absent : c ∉ text.toList) (solid : trim text.toList = text.toList) (some : text.toList ≠ []) :
    splitClean text separator = [text] := by
  have uncut : splitText c more text.toList = [text.toList] := by
    unfold splitText
    split
    · rfl
    next found =>
      rw [cutText_eq_none absent] at found
      cases found
  unfold splitClean
  rw [word]
  simp [uncut,clean,solid,some]

theorem cut_append (absent : c ∉ before) : cut c (before ++ c :: after) = some (before,after) := by
  induction before with
  | nil => simp [cut]
  | cons d rest ih =>
    simp only [List.mem_cons,not_or] at absent
    simp [cut,Ne.symm absent.1,ih absent.2]

theorem cutText_single (c : Char) (cs : List Char) : cutText c [] cs = cut c cs := by
  induction cs with
  | nil => rfl
  | cons d rest ih =>
    have starts : [c].isPrefixOf (d :: rest) = (c == d) := by simp [List.isPrefixOf]
    rw [cutText,cut,ih,starts]
    by_cases same : d = c
    · subst same
      simp
    · simp [same,Ne.symm same]

theorem exists_cut (member : c ∈ cs) : ∃ parts, cut c cs = some parts := by
  obtain ⟨before,after,rfl,absent⟩ := List.eq_append_cons_of_mem member
  exact ⟨(before,after),cut_append absent⟩

/-- A word of one character cuts a text into its pieces. -/
theorem splitText_single (c : Char) (cs : List Char) : splitText c [] cs = pieces (· == c) cs := by
  induction size : cs.length using Nat.strongRecOn generalizing cs with
  | ind n ih =>
    unfold splitText
    split
    next uncut =>
      have absent : c ∉ cs := fun member => by
        obtain ⟨parts,found⟩ := exists_cut member
        rw [cutText_single,found] at uncut
        cases uncut
      exact (pieces_of_free (beq_eq_false_of_not_mem absent)).symm
    next before after found =>
      rw [cutText_single] at found
      obtain ⟨rfl,absent⟩ := cut_eq_append found
      have shorter : after.length < n := by
        rw [← size,List.length_append,List.length_cons]
        omega
      rw [pieces_append_cons (beq_eq_false_of_not_mem absent) (beq_self_eq_true c),ih after.length shorter after rfl]

theorem splitClean_single (text : String) (c : Char) :
    splitClean text (String.singleton c) = (clean (pieces (· == c) text.toList)).map String.ofList := by
  have one : (String.singleton c).toList = [c] := String.toList_singleton c
  simp only [splitClean,one,splitText_single]

theorem intercalate_cons {separator first : List Char} {more : List (List Char)} :
    separator.intercalate (first :: more) = first ++ more.flatMap (separator ++ ·) := by
  induction more generalizing first with
  | nil => simp
  | cons second rest ih => rw [List.intercalate_cons_cons,ih,List.flatMap_cons,List.append_assoc,List.append_assoc]

theorem pieces_intercalate {parts : List (List Char)} (some : parts ≠ []) (free : ∀ part ∈ parts, c ∉ part) :
    pieces (· == c) ([c].intercalate parts) = parts := by
  obtain ⟨first,more,rfl⟩ := List.exists_cons_of_ne_nil some
  rw [intercalate_cons]
  exact pieces_flatMap free

theorem cons_intercalate {parts : List (List Char)} (some : parts ≠ []) :
    c :: [c].intercalate parts = parts.flatMap (c :: ·) := by
  obtain ⟨first,more,rfl⟩ := List.exists_cons_of_ne_nil some
  rw [intercalate_cons]
  rfl

theorem mem_intercalate {separator : List Char} {parts : List (List Char)} (member : c ∈ separator.intercalate parts) :
    c ∈ separator ∨ ∃ part ∈ parts, c ∈ part := by
  cases parts with
  | nil => simp at member
  | cons first more =>
    rw [intercalate_cons] at member
    simp only [List.mem_append,List.mem_flatMap] at member
    rcases member with here | ⟨part,later,between | inside⟩
    · exact .inr ⟨first,by simp,here⟩
    · exact .inl between
    · exact .inr ⟨part,by simp [later],inside⟩

/-- A front that satisfies a test ends before the first character that does not. -/
theorem span_append {p : Char → Bool} (inside : ∀ c ∈ before, p c = true) (stop : ∀ c ∈ after.head?, p c = false) :
    (before ++ after).span p = (before,after) := by
  rw [List.span_eq_takeWhile_dropWhile,List.takeWhile_append_of_pos inside,List.dropWhile_append_of_pos inside]
  cases after with
  | nil => simp
  | cons c more =>
    have outside : p c = false := stop c rfl
    simp [outside]

theorem trimStart_append (blank : ∀ c ∈ before, isBlank c = true) (stop : ∀ c ∈ after.head?, isBlank c = false) :
    trimStart (before ++ after) = after := by
  have parts := span_append blank stop
  rw [List.span_eq_takeWhile_dropWhile] at parts
  exact (Prod.mk.inj parts).2

theorem trimStart_of_head (solid : isBlank c = false) : trimStart (c :: cs) = c :: cs := by
  simp [trimStart,solid]

/-- Trimming the end stops at the last character that is not blank. -/
theorem trimEnd_append_cons (solid : isBlank c = false) : trimEnd (before ++ c :: after) = before ++ c :: trimEnd after := by
  have stop (cs : List Char) :
      (cs ++ c :: before.reverse).dropWhile isBlank = cs.dropWhile isBlank ++ c :: before.reverse := by
    induction cs with
    | nil => simp [solid]
    | cons d rest ih =>
      by_cases blank : isBlank d = true
      · simpa [blank] using ih
      · simp [blank]
  simp only [trimEnd,List.reverse_append,List.reverse_cons,List.append_assoc,List.cons_append,List.nil_append,stop,
    List.reverse_reverse]

/-- A text keeps its end under trimming exactly when its last character is not blank. -/
theorem trimEnd_eq_self_iff : trimEnd cs = cs ↔ ∀ c, cs.getLast? = some c → isBlank c = false := by
  rcases List.eq_nil_or_concat cs with rfl | ⟨front,last,rfl⟩
  · simp [trimEnd]
  · simp only [List.concat_eq_append,List.getLast?_append,List.getLast?_singleton,Option.some_or,Option.some.injEq,forall_eq']
    cases blank : isBlank last with
    | false =>
      have stays : trimEnd (front ++ last :: []) = front ++ last :: trimEnd [] := trimEnd_append_cons blank
      simpa [trimEnd] using stays
    | true =>
      simp only [Bool.true_eq_false,iff_false]
      intro same
      have shorter : (trimEnd (front ++ [last])).length ≤ front.length := by
        have := (List.dropWhile_suffix isBlank (l := front.reverse)).length_le
        simpa [trimEnd,blank] using this
      rw [same,List.length_append,List.length_singleton] at shorter
      omega

theorem trim_eq_self (start : ∀ c, cs.head? = some c → isBlank c = false)
    (last : ∀ c, cs.getLast? = some c → isBlank c = false) : trim cs = cs := by
  have front : trimStart cs = cs := by
    cases cs with
    | nil => rfl
    | cons c rest => exact trimStart_of_head (start c rfl)
  rw [trim,front,trimEnd_eq_self_iff]
  exact last

theorem not_isBlank_of_trimStart (starts : trimStart cs = c :: after) : isBlank c = false := by
  have stops := List.head?_dropWhile_not isBlank cs
  rw [trimStart] at starts
  rw [starts] at stops
  simpa using stops

/-- No blank character is left at either end of a trimmed text. -/
theorem not_isBlank_of_trim (ends : (trim cs).head? = some c ∨ (trim cs).getLast? = some c) : isBlank c = false := by
  rcases ends with starts | last
  · obtain ⟨more,whole⟩ := trimEnd_eq_prefix (trimStart cs)
    obtain ⟨rest,found⟩ := List.head?_eq_some_iff.mp starts
    exact not_isBlank_of_trimStart (whole.symm.trans (congrArg (· ++ more) found))
  · rw [trim,trimEnd,List.getLast?_reverse] at last
    obtain ⟨rest,found⟩ := List.head?_eq_some_iff.mp last
    exact not_isBlank_of_trimStart found

theorem trim_trim (cs : List Char) : trim (trim cs) = trim cs :=
  trim_eq_self (fun _ starts => not_isBlank_of_trim (.inl starts)) fun _ last => not_isBlank_of_trim (.inr last)

theorem trim_eq_self_iff : trim cs = cs ↔ ∀ c, cs.head? = some c ∨ cs.getLast? = some c → isBlank c = false := by
  constructor
  · intro same c ends
    rw [← same] at ends
    exact not_isBlank_of_trim ends
  · intro solid
    exact trim_eq_self (fun c starts => solid c (.inl starts)) fun c last => solid c (.inr last)

/-- Trimming takes blanks off, and nothing else. -/
theorem isBlank_or_mem_trim (member : c ∈ cs) : isBlank c = true ∨ c ∈ trim cs := by
  rw [← List.takeWhile_append_dropWhile (p := isBlank) (l := cs),List.mem_append] at member
  rcases member with front | behind
  · exact .inl (List.mem_takeWhile_imp front)
  · have member : c ∈ (trimStart cs).reverse := List.mem_reverse.mpr behind
    rw [← List.takeWhile_append_dropWhile (p := isBlank) (l := (trimStart cs).reverse),List.mem_append] at member
    rcases member with last | inside
    · exact .inl (List.mem_takeWhile_imp last)
    · exact .inr (List.mem_reverse.mpr inside)

theorem trim_eq_nil_iff : trim cs = [] ↔ ∀ c ∈ cs, isBlank c = true := by
  constructor
  · intro nothing c member
    exact (isBlank_or_mem_trim member).resolve_right (nothing ▸ List.not_mem_nil)
  · intro blanks
    have empty : trimStart cs = [] := List.dropWhile_eq_nil_iff.mpr blanks
    rw [trim,empty]
    rfl

theorem trim_cons_blank (blank : isBlank c = true) : trim (c :: cs) = trim cs := by
  simp [trim,trimStart,blank]

theorem trimEnd_cons (c : Char) (cs : List Char) :
    trimEnd (c :: cs) = if isBlank c = true ∧ trimEnd cs = [] then [] else c :: trimEnd cs := by
  have split : (cs.reverse ++ [c]).dropWhile isBlank =
      if (cs.reverse.dropWhile isBlank).isEmpty then [c].dropWhile isBlank
      else cs.reverse.dropWhile isBlank ++ [c] := List.dropWhile_append
  simp only [trimEnd,List.reverse_cons,split,List.isEmpty_iff,List.reverse_eq_nil_iff]
  by_cases nothing : cs.reverse.dropWhile isBlank = []
  · cases blank : isBlank c <;> simp [nothing,blank]
  · simp [nothing]

theorem trimEnd_append_solid (solid : ∀ c ∈ before, isBlank c = false) :
    trimEnd (before ++ after) = before ++ trimEnd after := by
  induction before with
  | nil => rfl
  | cons c rest ih =>
    have later := ih fun d member => solid d (List.mem_cons_of_mem c member)
    rw [List.cons_append,trimEnd_cons,if_neg (by simp [solid c List.mem_cons_self]),later,List.cons_append]

/-- The two ends of a text may be trimmed in either order. -/
theorem trim_eq (cs : List Char) : trim cs = trimStart (trimEnd cs) := by
  induction cs with
  | nil => rfl
  | cons c rest ih =>
    cases blank : isBlank c with
    | true =>
      rw [trim_cons_blank blank,ih,trimEnd_cons]
      split
      next nothing => rw [nothing.2]
      next => simp [trimStart,blank]
    | false =>
      have kept : trimEnd (c :: rest) = c :: trimEnd rest := @trimEnd_append_cons c [] rest blank
      rw [trim,trimStart_of_head blank,kept,trimStart_of_head blank]

theorem trim_trimStart (cs : List Char) : trim (trimStart cs) = trim cs :=
  congrArg trimEnd (List.dropWhile_idempotent isBlank cs)

theorem trim_trimEnd (cs : List Char) : trim (trimEnd cs) = trim cs := by
  have twice : trimEnd (trimEnd cs) = trimEnd cs := by simp [trimEnd,List.dropWhile_idempotent]
  rw [trim_eq,twice,← trim_eq]

/-- Trimming stops on both sides of a character that is not blank. -/
theorem trim_append_cons (solid : isBlank c = false) : trim (before ++ c :: after) = trimStart before ++ c :: trimEnd after := by
  have start : trimStart (before ++ c :: after) = trimStart before ++ c :: after := by
    induction before with
    | nil => exact trimStart_of_head solid
    | cons d rest ih =>
      cases blank : isBlank d with
      | true => simpa [trimStart,blank] using ih
      | false => rw [List.cons_append,trimStart_of_head blank,trimStart_of_head blank,List.cons_append]
  rw [trim,start,trimEnd_append_cons solid]

/-- What blanks at neither end change is not changed by trimming. -/
theorem apply_trim {α : Type} {f : List Char → α} (front : ∀ c cs, isBlank c = true → f (c :: cs) = f cs)
    (back : ∀ c cs, isBlank c = true → f (cs ++ [c]) = f cs) (cs : List Char) : f (trim cs) = f cs := by
  have start (cs : List Char) : f (trimStart cs) = f cs := by
    induction cs with
    | nil => rfl
    | cons c rest ih =>
      cases blank : isBlank c with
      | true => rw [front c rest blank,← ih,trimStart,List.dropWhile_cons_of_pos blank,trimStart]
      | false => rw [trimStart_of_head blank]
  have last (reversed : List Char) : f (trimEnd reversed.reverse) = f reversed.reverse := by
    induction reversed with
    | nil => rfl
    | cons c rest ih =>
      rw [List.reverse_cons]
      cases blank : isBlank c with
      | true =>
        have shorter : trimEnd (rest.reverse ++ [c]) = trimEnd rest.reverse := by simp [trimEnd,blank]
        rw [back c rest.reverse blank,shorter,ih]
      | false =>
        have kept : trimEnd (rest.reverse ++ [c]) = rest.reverse ++ [c] := trimEnd_append_cons blank
        rw [kept]
  have last := last (trimStart cs).reverse
  rw [List.reverse_reverse] at last
  rw [trim,last,start]

theorem clean_append (parts others : List (List Char)) : clean (parts ++ others) = clean parts ++ clean others := by
  rw [clean,List.map_append,List.filter_append,clean,clean]

theorem clean_eq {parts trimmed : List (List Char)} (same : parts.map trim = trimmed)
    (some : ∀ part ∈ trimmed, part ≠ []) : clean parts = trimmed := by
  rw [clean,same,List.filter_eq_self]
  intro part member
  simpa using some part member

end TreeConsole.Text
