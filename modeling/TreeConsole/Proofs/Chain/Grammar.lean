import TreeConsole.Proofs.Chain.Balance
import TreeConsole.Proofs.Chain.Blank
import TreeConsole.Proofs.Chain.Spelling

/-! The grammar of calls.
The reader of a call takes what stands between a parenthesis behind the name and the end of the text, and leaves the
rest to the scan of the arguments. Together they accept a name alone or with one group behind it, whose parenthesis is closed
at the end of the text and not before.
-/
namespace TreeConsole.Call
open Text
variable {call : Call} {args : List Value} {name blanks rest inner cs : List Char} {parts : List (List Char)}

/-- The values of the pieces that are not blank. -/
def literals (parts : List (List Char)) : List Value := (clean parts).map fun part => Value.ofLiteral (String.ofList part)

/-- The forms of a call: a name alone, or a name and a group of literals on one line. -/
inductive Grammar : List Char → Call → Prop
  | alone {name blanks : List Char} (named : IsName name) (blank : ∀ c ∈ blanks, isBlank c = true) :
      Grammar (name ++ blanks) ⟨String.ofList name,[]⟩
  | applied {name blanks inner : List Char} {parts : List (List Char)} (named : IsName name)
      (blank : ∀ c ∈ blanks, isBlank c = true) (oneLine : '\n' ∉ inner)
      (matched : Chain.Matched ('(' :: (inner ++ [')']))) (cut : Chain.Parts ',' inner parts) :
      Grammar (name ++ (blanks ++ '(' :: (inner ++ [')']))) ⟨String.ofList name,literals parts⟩

/-! Lists of arguments -/

theorem ofTrimmed_clean (parts : List (List Char)) : (clean parts).map Value.ofTrimmed = literals parts := by
  refine List.map_congr_left fun part member => ?_
  obtain ⟨whole,_,rfl⟩ := List.mem_map.mp (List.mem_filter.mp member).1
  rw [Value.ofLiteral,String.toList_ofList,trim_trim]

theorem readArguments?_eq_some_iff : readArguments? inner = some args ↔
    ∃ parts, Chain.Balanced inner ∧ Chain.Parts ',' inner parts ∧ literals parts = args := by
  have comma : Chain.Balanced [','] := .plain (List.forall_mem_singleton.mpr (by decide))
  rw [readArguments?,Chain.splitOutside,Option.map_map,Option.map_eq_some_iff]
  simp only [Chain.scan_iff_parts comma,Function.comp_apply,ofTrimmed_clean,and_assoc]

theorem opens_of_readList? (listed : readList? rest = some args) : ∀ c, rest.head? = some c → c = '(' := by
  intro c head
  unfold readList? at listed
  split at listed
  next => cases head
  next =>
    cases head
    rfl
  next => cases listed

theorem readList?_eq_some_iff : readList? ('(' :: rest) = some args ↔
    ∃ inner parts, rest = inner ++ [')'] ∧ '\n' ∉ inner ∧ Chain.Matched ('(' :: (inner ++ [')'])) ∧
      Chain.Parts ',' inner parts ∧ literals parts = args := by
  have matched (inner : List Char) : Chain.Matched ('(' :: (inner ++ [')'])) ↔ Chain.Balanced inner := by
    rw [Chain.matched_iff]
    simp
  simp only [readList?,Option.bind_eq_some_iff,closing_eq_some_iff,Option.ite_none_left_eq_some,
    readArguments?_eq_some_iff,matched]
  constructor
  · rintro ⟨inner,rfl,oneLine,parts,balanced,cut,same⟩
    exact ⟨inner,parts,rfl,oneLine,balanced,cut,same⟩
  · rintro ⟨inner,parts,rfl,oneLine,balanced,cut,same⟩
    exact ⟨inner,rfl,oneLine,parts,balanced,cut,same⟩

/-! Calls -/

theorem isName_of_head (starts : name.head?.any isNameStart = true) (inside : ∀ c ∈ name, isNameChar c = true) :
    IsName name := by
  cases name with
  | nil => cases starts
  | cons first more => exact ⟨first,more,rfl,starts,(List.forall_mem_cons.mp inside).2⟩

theorem exists_of_readTrimmed? (found : readTrimmed? cs = some call) : ∃ name blanks rest, IsName name ∧
    (∀ c ∈ blanks, isBlank c = true) ∧ cs = name ++ (blanks ++ rest) ∧ readList? rest = some call.args ∧
    call.method = String.ofList name := by
  rw [readTrimmed?,List.span_eq_takeWhile_dropWhile] at found
  obtain ⟨starts,joined⟩ := Option.ite_none_right_eq_some.mp found
  obtain ⟨args,listed,rfl⟩ := Option.map_eq_some_iff.mp joined
  have named := isName_of_head starts fun c member => List.mem_takeWhile_imp member
  refine ⟨_,(cs.dropWhile isNameChar).takeWhile isBlank,_,named,?_,?_,listed,rfl⟩
  · exact fun c member => List.mem_takeWhile_imp member
  · rw [trimStart,List.takeWhile_append_dropWhile,List.takeWhile_append_dropWhile]

theorem readTrimmed?_iff_grammar : readTrimmed? cs = some call ↔ Grammar cs call := by
  constructor
  · intro found
    obtain ⟨name,blanks,rest,named,blank,rfl,listed,method⟩ := exists_of_readTrimmed? found
    obtain ⟨_,args⟩ := call
    obtain rfl := method
    cases rest with
    | nil =>
      cases listed
      rw [List.append_nil]
      exact .alone named blank
    | cons c later =>
      obtain rfl := opens_of_readList? listed c rfl
      obtain ⟨inner,parts,rfl,oneLine,matched,cut,rfl⟩ := readList?_eq_some_iff.mp listed
      exact .applied named blank oneLine matched cut
  · intro formed
    cases formed with
    | @alone name blanks named blank =>
      have found := @readTrimmed?_named name blanks [] named blank (by simp)
      rw [List.append_nil] at found
      exact found
    | applied named blank oneLine matched cut =>
      rw [readTrimmed?_named named blank (by simp),readList?_eq_some_iff.mpr ⟨_,_,rfl,oneLine,matched,cut,rfl⟩]
      rfl

theorem Grammar.balanced (formed : Grammar cs call) : Chain.Balanced cs := by
  have named {name : List Char} (named : IsName name) : Chain.Balanced name :=
    .plain fun c member => plain_of_isWordChar (named.isWordChar_of_mem c member) rfl
  have blank {blanks : List Char} (blank : ∀ c ∈ blanks, isBlank c = true) : Chain.Balanced blanks :=
    .plain fun c member => Chain.plain_of_isBlank (blank c member) (by decide)
  cases formed with
  | alone isName isBlank => exact (Chain.balanced_append (named isName).outside).mpr ⟨named isName,blank isBlank⟩
  | applied isName isBlank _ matched _ =>
    have behind := (Chain.balanced_append (blank isBlank).outside).mpr ⟨blank isBlank,matched.balanced⟩
    exact (Chain.balanced_append (named isName).outside).mpr ⟨named isName,behind⟩

/-- Behind a group whose parenthesis is closed nothing may follow. -/
theorem Grammar.nothing_behind {group : List Char} (formed : Grammar (name ++ (blanks ++ (group ++ rest))) call)
    (named : IsName name) (blank : ∀ c ∈ blanks, isBlank c = true) (matched : Chain.Matched group) : rest = [] := by
  obtain ⟨more,rfl⟩ := matched.opens
  have found := readTrimmed?_iff_grammar.mpr formed
  rw [readTrimmed?_named named blank (by simp)] at found
  obtain ⟨args,listed,_⟩ := Option.map_eq_some_iff.mp found
  obtain ⟨inner,_,same,_,longer,_⟩ := readList?_eq_some_iff.mp listed
  refine matched.eq_nil ?_
  have whole : ['('] ++ more ++ rest = '(' :: (inner ++ [')']) := by rw [← same]; rfl
  rw [whole]
  exact longer

/-- A text is read as the call that its trimmed text has the form of. All other texts are malformed, among them those whose
quotes or parentheses are not balanced and those that go on behind the group of a name. -/
theorem read_iff_grammar (text : String) :
    (∀ call, read text = .ok call ↔ Grammar (trim text.toList) call) ∧
    ((∀ call, ¬ Grammar (trim text.toList) call) → read text = .error (.malformed (trimmed text))) ∧
    (¬ Chain.Balanced (trim text.toList) → read text = .error (.malformed (trimmed text))) ∧
    ∀ name blanks group rest, IsName name → (∀ c ∈ blanks, isBlank c = true) → Chain.Matched group → rest ≠ [] →
      trim text.toList = name ++ (blanks ++ (group ++ rest)) → read text = .error (.malformed (trimmed text)) := by
  have accepted (call : Call) : read text = .ok call ↔ Grammar (trim text.toList) call := by
    rw [← readTrimmed?_iff_grammar,read]
    cases readTrimmed? (trim text.toList) <;> simp
  have refused (formless : ∀ call, ¬ Grammar (trim text.toList) call) : read text = .error (.malformed (trimmed text)) := by
    cases found : readTrimmed? (trim text.toList) with
    | none => rw [read,found]
    | some call => exact absurd (readTrimmed?_iff_grammar.mp found) (formless call)
  refine ⟨accepted,refused,?_,?_⟩
  · exact fun unbalanced => refused fun call formed => unbalanced formed.balanced
  · intro name blanks group rest named blank matched goesOn same
    refine refused fun call formed => goesOn ?_
    rw [same] at formed
    exact formed.nothing_behind named blank matched

example : read "get_child(0)(1)" = .error (.malformed "get_child(0)(1)") := rfl

example : read " rename ('a)b' , (1,2),)" = .ok ⟨"rename",[.string "a)b",.string "(1,2)"]⟩ := by rfl

end TreeConsole.Call
