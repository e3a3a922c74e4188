import TreeConsole.Command
import TreeConsole.Proofs.Text.Quoting
import Mathlib.Data.List.TakeWhile

/-! The first word of a line.
The rest of a line is what stands behind its first word, so a line with more than blanks in its rest has a second
token whenever its first token is not joined of several words.
-/
namespace TreeConsole
namespace Text
variable {c : Char} {cs before after word token : List Char} {ws : List (List Char)}

theorem words_cons_blank (blank : isBlank c = true) : words (c :: cs) = words cs :=
  @words_append_blank [] cs c blank

theorem words_append_blanks (blanks : ∀ c ∈ after, isBlank c = true) : words (before ++ after) = words before := by
  induction after generalizing before with
  | nil => rw [List.append_nil]
  | cons c rest ih =>
    have nothing : words rest = [] := @ih [] fun d member => blanks d (List.mem_cons_of_mem c member)
    rw [words_append_blank (blanks c List.mem_cons_self),nothing,List.append_nil]

theorem words_trimEnd (cs : List Char) : words (trimEnd cs) = words cs := by
  have parts : trimEnd cs ++ (cs.reverse.takeWhile isBlank).reverse = cs := by
    rw [trimEnd,← List.reverse_append,List.takeWhile_append_dropWhile,List.reverse_reverse]
  have blanks : ∀ c ∈ (cs.reverse.takeWhile isBlank).reverse, isBlank c = true := fun c member =>
    List.mem_takeWhile_imp (List.mem_reverse.mp member)
  calc words (trimEnd cs) = words (trimEnd cs ++ (cs.reverse.takeWhile isBlank).reverse) :=
        (words_append_blanks blanks).symm
    _ = words cs := by rw [parts]

theorem words_trimStart (cs : List Char) : words (trimStart cs) = words cs := by
  induction cs with
  | nil => rfl
  | cons c rest ih =>
    cases blank : isBlank c with
    | false => rw [trimStart_of_head blank]
    | true =>
      have skipped : trimStart (c :: rest) = trimStart rest := by simp [trimStart,blank]
      rw [skipped,ih,words_cons_blank blank]

/-- A text that does not start with a blank starts with its first word. -/
theorem words_of_head (solid : isBlank c = false) :
    ∃ first, words (c :: cs) = first :: words ((c :: cs).dropWhile fun d => !isBlank d) := by
  have parts := @List.takeWhile_append_dropWhile _ (fun d => !isBlank d) (c :: cs)
  have whole : words ((c :: cs).takeWhile fun d => !isBlank d) = [(c :: cs).takeWhile fun d => !isBlank d] := by
    apply words_solid
    · simp [solid]
    · intro d member
      simpa using List.mem_takeWhile_imp member
  refine ⟨(c :: cs).takeWhile fun d => !isBlank d,?_⟩
  have stops := List.head?_dropWhile_not (fun d => !isBlank d) (c :: cs)
  cases behind : (c :: cs).dropWhile fun d => !isBlank d with
  | nil =>
    rw [behind,List.append_nil] at parts
    rw [parts] at whole ⊢
    exact whole
  | cons d rest =>
    have blank : isBlank d = true := by
      rw [behind] at stops
      simpa using stops
    rw [behind] at parts
    calc words (c :: cs) = words ((c :: cs).takeWhile fun d => !isBlank d) ++ words rest := by
          rw [← words_append_blank blank,parts]
      _ = ((c :: cs).takeWhile fun d => !isBlank d) :: words (d :: rest) := by
          rw [whole,words_cons_blank blank,List.singleton_append]

theorem words_eq_nil_iff : words cs = [] ↔ trimStart cs = [] := by
  rw [← words_trimStart]
  cases starts : trimStart cs with
  | nil => exact ⟨fun _ => rfl,fun _ => rfl⟩
  | cons c rest =>
    obtain ⟨first,found⟩ := @words_of_head c rest (not_isBlank_of_trimStart starts)
    simp [found]

theorem words_ne_nil (some : ∃ c ∈ cs, isBlank c = false) : words cs ≠ [] := by
  obtain ⟨c,member,solid⟩ := some
  intro nothing
  have blanks := List.dropWhile_eq_nil_iff.mp (words_eq_nil_iff.mp nothing)
  exact Bool.false_ne_true (solid.symm.trans (blanks c member))

theorem closeRun_ne_nil {quote : Char} {run : List (List Char)} {rest : List (List Char)}
    (closed : closeRun quote ws = some (run,rest)) : run ≠ [] := by
  cases ws with
  | nil => cases closed
  | cons word more =>
    unfold closeRun at closed
    split at closed
    · cases closed
      exact List.cons_ne_nil _ _
    · obtain ⟨_,_,equal⟩ := Option.map_eq_some_iff.mp closed
      cases equal
      exact List.cons_ne_nil _ _

theorem joinQuoted_ne_nil (some : ws ≠ []) : joinQuoted ws ≠ [] := by
  obtain ⟨word,rest,rfl⟩ := List.exists_cons_of_ne_nil some
  rw [joinQuoted]
  split
  · exact List.cons_ne_nil _ _
  · split
    · exact List.cons_ne_nil _ _
    · split <;> exact List.cons_ne_nil _ _

/-- A first token without a space is made of the first word alone. -/
theorem joinQuoted_of_head (head : (joinQuoted (word :: ws)).head? = some token) (noSpace : ' ' ∉ token) :
    joinQuoted (word :: ws) = token :: joinQuoted ws := by
  rw [joinQuoted] at head ⊢
  split at head
  · cases head
    rfl
  next before quote inner opened =>
    split at head
    · cases head
      rfl
    · split at head
      next run after closed =>
        cases head
        -- A quotation over several words holds the spaces that join them.
        have joined : ' ' ∈ before ++ unwords (inner :: run) := by
          obtain ⟨second,more,rfl⟩ := List.exists_cons_of_ne_nil (closeRun_ne_nil closed)
          simp [unwords]
        exact absurd joined noSpace
      · cases head
        rfl

theorem tokenize_ne_nil {text : String} (some : ∃ c ∈ text.toList, isBlank c = false) : tokenize text ≠ [] := by
  rw [tokenize_eq]
  exact mt List.map_eq_nil_iff.mp (joinQuoted_ne_nil (words_ne_nil some))

end Text

namespace Catalog
open Text

theorem words_line (line : String) : words line.toList = [] ∨
    ∃ first, words line.toList = first :: words (remainder line).toList := by
  have trimmed : words (trim line.toList) = words line.toList := by rw [trim,words_trimEnd,words_trimStart]
  rw [remainder,String.toList_ofList,words_trimStart,← trimmed]
  cases starts : trim line.toList with
  | nil => exact .inl rfl
  | cons c rest =>
    obtain ⟨more,whole⟩ := trimEnd_eq_prefix (trimStart line.toList)
    have solid : isBlank c = false := not_isBlank_of_trimStart (whole.symm.trans (congrArg (· ++ more) starts))
    exact .inr (words_of_head solid)

theorem remainder_eq_empty {line : String} (nothing : words (remainder line).toList = []) : remainder line = "" := by
  rw [remainder,String.toList_ofList,words_trimStart,words_eq_nil_iff] at nothing
  rw [remainder,nothing]

/-- A first token without a space is the first word alone, and the other tokens are those of the text behind it. -/
theorem tokenize_remainder {line name : String} (head : (tokenize line).head? = some name) (noSpace : ' ' ∉ name.toList) :
    tokenize line = name :: tokenize (remainder line) := by
  rw [tokenize_eq] at head
  rw [tokenize_eq,tokenize_eq]
  rcases words_line line with nothing | ⟨first,found⟩
  · rw [nothing,joinQuoted] at head
    cases head
  · rw [found,List.head?_map] at head
    obtain ⟨token,isHead,rfl⟩ := Option.map_eq_some_iff.mp head
    rw [String.toList_ofList] at noSpace
    rw [found,joinQuoted_of_head isHead noSpace,List.map_cons]

/-- A line whose rest is not empty has a token behind its command. -/
theorem exists_argument {line name : String} (head : (tokenize line).head? = some name) (noSpace : ' ' ∉ name.toList)
    (some : remainder line ≠ "") : ∃ token more, tokenize line = name :: token :: more := by
  have behind : words (remainder line).toList ≠ [] := fun nothing => some (remainder_eq_empty nothing)
  obtain ⟨second,more,tail⟩ := List.exists_cons_of_ne_nil (joinQuoted_ne_nil behind)
  refine ⟨String.ofList second,more.map String.ofList,?_⟩
  rw [tokenize_remainder head noSpace,tokenize_eq,tail,List.map_cons]

theorem remainder_suffix (line : String) : (remainder line).toList <:+ trim line.toList := by
  rw [remainder,String.toList_ofList]
  exact (trimStart_eq_suffix _).trans (List.dropWhile_suffix _)

/-- The text behind the first word has no blank at either end. -/
theorem not_isBlank_of_remainder {line : String} {c : Char}
    (ends : (remainder line).toList.head? = some c ∨ (remainder line).toList.getLast? = some c) : isBlank c = false := by
  rcases ends with starts | last
  · rw [remainder,String.toList_ofList] at starts
    obtain ⟨rest,found⟩ := List.head?_eq_some_iff.mp starts
    exact not_isBlank_of_trimStart found
  · obtain ⟨front,whole⟩ := remainder_suffix line
    refine not_isBlank_of_trim (.inr (?_ : (trim line.toList).getLast? = some c))
    rw [← whole,List.getLast?_append,last,Option.some_or]

/-! A command with a text behind it -/

/-- A word that is written as it is: not empty, without blanks and quotes. -/
structure Bare (name : String) : Prop where
  nonempty : name ≠ ""
  solid : ∀ c ∈ name.toList, isBlank c = false
  plain : ∀ c ∈ name.toList, isQuote c = false

theorem toList_command (name text : String) : (name ++ " " ++ text).toList = name.toList ++ ' ' :: text.toList := by
  have space : " ".toList = [' '] := rfl
  rw [String.toList_append,String.toList_append,space,List.append_assoc,List.singleton_append]

theorem Bare.tokenize {name : String} (bare : Bare name) (text : String) :
    Text.tokenize (name ++ " " ++ text) = name :: Text.tokenize text := by
  have joined := joinQuoted_written (.bare name bare.nonempty bare.solid bare.plain) (words text.toList)
  rw [tokenize_eq,tokenize_eq,toList_command,words_append_blank (by decide)]
  dsimp only [Written.text,Written.word] at joined
  rw [joined,List.map_cons,String.ofList_toList]

/-- What stands behind a command is seen by its handler as it was typed, but for the blanks around it. -/
theorem Bare.remainder {name : String} (bare : Bare name) (text : String) :
    remainder (name ++ " " ++ text) = Text.trimmed text := by
  have trimmed : trim (name.toList ++ ' ' :: text.toList) = name.toList ++ trimEnd (' ' :: text.toList) := by
    obtain ⟨c,rest,spelled⟩ := List.exists_cons_of_ne_nil fun nothing => bare.nonempty (String.toList_eq_nil_iff.mp nothing)
    have start : trimStart (name.toList ++ ' ' :: text.toList) = name.toList ++ ' ' :: text.toList := by
      rw [spelled]
      exact trimStart_of_head (bare.solid c (by simp [spelled]))
    rw [trim,start,trimEnd_append_solid bare.solid]
  have behind : (trimEnd (' ' :: text.toList)).dropWhile (fun c => !isBlank c) = trimEnd (' ' :: text.toList) := by
    rw [trimEnd_cons]
    split <;> rfl
  have noBlank : ∀ c ∈ name.toList, (!isBlank c) = true := fun c member => by rw [bare.solid c member]; rfl
  rw [Catalog.remainder,toList_command,trimmed,List.dropWhile_append_of_pos noBlank,behind,← trim_eq,
    trim_cons_blank (by decide),Text.trimmed]

end Catalog
end TreeConsole
