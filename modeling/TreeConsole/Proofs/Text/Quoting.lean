import TreeConsole.Proofs.Text.Pieces
import TreeConsole.Text.Token

/-! Words in quotes.
A word may be written bare, between quotes, or between quotes behind a name and an equals sign. However the words
of a line are written, the line is cut into exactly these words again.
-/
namespace TreeConsole.Text
variable {cs before after front inner : List Char} {quote c : Char} {rest : List (List Char)}

/-! Words of joined texts -/

theorem words_append_blank (blank : isBlank c = true) : words (before ++ c :: after) = words before ++ words after := by
  rw [words,pieces_append_sep blank,List.filter_append]
  rfl

theorem words_solid (nonempty : cs ≠ []) (solid : ∀ c ∈ cs, isBlank c = false) : words cs = [cs] := by
  rw [words,pieces_of_free solid]
  simpa using nonempty

theorem words_intercalate (texts : List (List Char)) : words ([' '].intercalate texts) = texts.flatMap words := by
  induction texts with
  | nil => rfl
  | cons text later ih =>
    cases later with
    | nil => simp
    | cons second more =>
      rw [List.intercalate_cons_cons,List.append_assoc,List.singleton_append,words_append_blank (by decide),ih,
        List.flatMap_cons,List.flatMap_cons,List.flatMap_cons]

theorem tokenize_eq (line : String) : tokenize line = (joinQuoted (words line.toList)).map String.ofList := by
  simp [tokenize,mergeQuoted,lineWords,Function.comp_def]

/-! Spaces -/

/-- Blank at single spaces only. -/
structure Spaced (cs : List Char) : Prop where
  spaces : ∀ c ∈ cs, isBlank c = true → c = ' '
  single : ¬ [' ',' '] <:+: cs

theorem spaced_iff : Spaced cs ↔ (cs.all fun c => !isBlank c || c == ' ') = true ∧ ¬ [' ',' '] <:+: cs := by
  have spaces : (cs.all fun c => !isBlank c || c == ' ') = true ↔ ∀ c ∈ cs, isBlank c = true → c = ' ' := by
    rw [List.all_eq_true]
    refine forall₂_congr fun c _ => ?_
    cases isBlank c <;> simp
  rw [spaces]
  exact ⟨fun spaced => ⟨spaced.spaces,spaced.single⟩,fun ⟨spaces,single⟩ => ⟨spaces,single⟩⟩

theorem Spaced.solid (spaced : Spaced cs) (inside : before <:+: cs) (free : ' ' ∉ before) :
    ∀ c ∈ before, isBlank c = false := by
  intro c member
  cases blank : isBlank c with
  | false => rfl
  | true => exact absurd (spaced.spaces c (inside.subset member) blank ▸ member) free

/-- What stands behind a space is spaced again and does not start with one. -/
theorem Spaced.behind (spaced : Spaced (before ++ ' ' :: after)) : Spaced after ∧ after.head? ≠ some ' ' := by
  have inside : after <:+: before ++ ' ' :: after := ⟨before ++ [' '],[],by simp⟩
  refine ⟨⟨?_,?_⟩,?_⟩
  · intro c member
    exact spaced.spaces c (inside.subset member)
  · intro double
    exact spaced.single (double.trans inside)
  · intro next
    obtain ⟨more,rfl⟩ := List.head?_eq_some_iff.mp next
    exact spaced.single ⟨before,more,by simp⟩

/-! Quoted runs -/

theorem isBlank_of_isQuote (isQuote : isQuote quote = true) : isBlank quote = false := by
  simp only [Text.isQuote,Bool.or_eq_true,beq_iff_eq] at isQuote
  rcases isQuote with rfl | rfl <;> decide

theorem closing_concat : closing quote (inner ++ [quote]) = some inner := by
  simp [closing]

theorem closing_eq_some_iff : closing quote cs = some inner ↔ cs = inner ++ [quote] := by
  constructor
  · intro closed
    obtain ⟨last,same⟩ := Option.ite_none_right_eq_some.mp closed
    cases same
    exact (List.dropLast_append_getLast? quote last).symm
  · rintro rfl
    exact closing_concat

theorem closing_eq_none (absent : quote ∉ cs) : closing quote cs = none := by
  have last : cs.getLast? ≠ some quote := fun last => absent (List.mem_of_getLast? last)
  simp [closing,last]

theorem unwords_cons {run : List (List Char)} (some : run ≠ []) : unwords (cs :: run) = cs ++ ' ' :: unwords run := by
  obtain ⟨second,more,rfl⟩ := List.exists_cons_of_ne_nil some
  simp [unwords,List.intercalate_cons_cons]

/-- The words of a text up to its closing quote are a run that spells the text. -/
theorem closeRun_words (isQuote : isQuote quote = true) (absent : quote ∉ cs) (spaced : Spaced cs)
    (start : cs.head? ≠ some ' ') (rest : List (List Char)) :
    ∃ run, run ≠ [] ∧ closeRun quote (words (cs ++ [quote]) ++ rest) = some (run,rest) ∧ unwords run = cs := by
  induction size : cs.length using Nat.strongRecOn generalizing cs with
  | ind size ih =>
    -- A first word without the quote leaves the run open, and what stands behind its space is shorter.
    by_cases space : ' ' ∈ cs
    · obtain ⟨word,later,rfl,free⟩ := List.eq_append_cons_of_mem space
      obtain ⟨spacedLater,startLater⟩ := spaced.behind
      have solid := spaced.solid ⟨[],' ' :: later,rfl⟩ free
      have nonempty : word ≠ [] := by
        rintro rfl
        exact start rfl
      have open' : closing quote word = none := closing_eq_none (by simp_all)
      obtain ⟨run,some,closed,spelled⟩ := ih later.length (by simp [← size]; omega) (by simp_all) spacedLater startLater rfl
      refine ⟨word :: run,by simp,?_,?_⟩
      · rw [List.append_assoc,List.cons_append,words_append_blank (by decide),words_solid nonempty solid]
        simp [closeRun,open',closed]
      · rw [unwords_cons some,spelled]
    · have solid : ∀ c ∈ cs ++ [quote], isBlank c = false := by
        intro c member
        rcases List.mem_append.mp member with inside | last
        · exact spaced.solid (List.infix_refl _) space c inside
        · rw [List.mem_singleton.mp last]
          exact isBlank_of_isQuote isQuote
      refine ⟨[cs],by simp,?_,by simp [unwords]⟩
      rw [words_solid (by simp) solid]
      simp [closeRun,closing_concat]

/-- A run that the word itself does not close is looked for in the words behind it. -/
theorem joinQuoted_opened {word : List Char} (opens : opening word = some (front,quote,inner))
    (open' : closing quote inner = none) : joinQuoted (word :: rest) =
      match closeRun quote rest with
      | some (run,after) => (front ++ unwords (inner :: run)) :: joinQuoted after
      | none => word :: joinQuoted rest := by
  rw [joinQuoted,opens]
  simp only [open']
  split
  next closed => rw [closed]
  next unclosed => rw [unclosed]

/-- Text in quotes, behind a front at which they open, becomes one token, whatever stands behind it. -/
theorem joinQuoted_words (isQuote : isQuote quote = true) (absent : quote ∉ cs) (spaced : Spaced cs)
    (solid : ∀ c ∈ front, isBlank c = false)
    (opens : ∀ inner, opening (front ++ quote :: inner) = some (front,quote,inner)) (rest : List (List Char)) :
    joinQuoted (words (front ++ quote :: (cs ++ [quote])) ++ rest) = (front ++ cs) :: joinQuoted rest := by
  have solidQuote := isBlank_of_isQuote isQuote
  by_cases space : ' ' ∈ cs
  · obtain ⟨word,later,rfl,free⟩ := List.eq_append_cons_of_mem space
    obtain ⟨spacedLater,startLater⟩ := spaced.behind
    have solidWord := spaced.solid ⟨[],' ' :: later,rfl⟩ free
    have first : words (front ++ quote :: word) = [front ++ quote :: word] :=
      words_solid (by simp) (by simp only [List.mem_append,List.mem_cons]; grind)
    have cut : front ++ quote :: (word ++ ' ' :: later ++ [quote]) =
        (front ++ quote :: word) ++ ' ' :: (later ++ [quote]) := by simp
    have open' : closing quote word = none := closing_eq_none (by simp_all)
    obtain ⟨run,some,closed,spelled⟩ := closeRun_words isQuote (by simp_all) spacedLater startLater rest
    rw [cut,words_append_blank (by decide),first,List.singleton_append,List.cons_append,
      joinQuoted_opened (opens word) open',closed]
    simp only [unwords_cons some,spelled]
  · have whole : words (front ++ quote :: (cs ++ [quote])) = [front ++ quote :: (cs ++ [quote])] := by
      refine words_solid (by simp) ?_
      have solidText := spaced.solid (List.infix_refl _) space
      simp only [List.mem_append,List.mem_cons]
      grind
    rw [whole,List.singleton_append,joinQuoted,opens]
    simp [closing_concat]

/-! Written words -/

/-- A word between two equal quotes that do not occur in it. -/
structure Quotation where
  quote : Char
  word : String
  isQuote : isQuote quote = true
  absent : quote ∉ word.toList
  spaced : Spaced word.toList

inductive Written where
  | bare (word : String) (nonempty : word ≠ "") (solid : ∀ c ∈ word.toList, isBlank c = false)
      (plain : ∀ c ∈ word.toList, isQuote c = false)
  | quoted (quotation : Quotation)
  | assigned (name : String) (noEquals : '=' ∉ name.toList) (solid : ∀ c ∈ name.toList, isBlank c = false)
      (start : ∀ c, name.toList.head? = some c → isQuote c = false) (quotation : Quotation)

namespace Quotation

def text (quotation : Quotation) : String :=
  String.singleton quotation.quote ++ quotation.word ++ String.singleton quotation.quote

end Quotation

namespace Written

def word : Written → String
  | .bare word .. => word
  | .quoted quotation => quotation.word
  | .assigned name _ _ _ quotation => name ++ "=" ++ quotation.word

def text : Written → String
  | .bare word .. => word
  | .quoted quotation => quotation.text
  | .assigned name _ _ _ quotation => name ++ "=" ++ quotation.text

end Written

theorem opening_plain (plain : ∀ c ∈ cs, isQuote c = false) : opening cs = none := by
  cases cs with
  | nil => rfl
  | cons first more =>
    have bare : isQuote first = false := plain first (by simp)
    rw [opening,if_neg (by simp [bare])]
    split
    next before quote after found =>
      have member : quote ∈ first :: more := by
        rw [(cut_eq_append found).1]
        simp
      simp [plain quote member]
    next => rfl

theorem opening_assigned {name : List Char} (noEquals : '=' ∉ name) (start : ∀ c, name.head? = some c → isQuote c = false)
    (isQuote : isQuote quote = true) : opening (name ++ ['='] ++ quote :: inner) = some (name ++ ['='],quote,inner) := by
  have found : cut '=' (name ++ '=' :: quote :: inner) = some (name,quote :: inner) := cut_append noEquals
  rw [List.append_assoc,List.singleton_append]
  cases name with
  | nil =>
    rw [List.nil_append] at found ⊢
    rw [opening,if_neg (by decide),found]
    simp [isQuote]
  | cons first more =>
    have bare : Text.isQuote first = false := start first rfl
    rw [List.cons_append,opening,if_neg (by simp [bare]),← List.cons_append,found]
    simp [isQuote]

theorem joinQuoted_written (item : Written) (rest : List (List Char)) :
    joinQuoted (words item.text.toList ++ rest) = item.word.toList :: joinQuoted rest := by
  cases item with
  | bare word nonempty solid plain =>
    rw [Written.text,Written.word,words_solid (by simpa using nonempty) solid,List.singleton_append,joinQuoted,
      opening_plain plain]
  | quoted quotation =>
    have opens (inner : List Char) : opening ([] ++ quotation.quote :: inner) = some ([],quotation.quote,inner) := by
      simp [opening,quotation.isQuote]
    have joined := joinQuoted_words quotation.isQuote quotation.absent quotation.spaced (by simp) opens rest
    simpa [Written.text,Written.word,Quotation.text] using joined
  | assigned name noEquals solid start quotation =>
    have opens (inner : List Char) := @opening_assigned inner quotation.quote name.toList noEquals start quotation.isQuote
    have solidFront : ∀ c ∈ name.toList ++ ['='], isBlank c = false := by
      intro c member
      rcases List.mem_append.mp member with inside | last
      · exact solid c inside
      · rw [List.mem_singleton.mp last]
        decide
    have joined := joinQuoted_words quotation.isQuote quotation.absent quotation.spaced solidFront opens rest
    simpa [Written.text,Written.word,Quotation.text] using joined

theorem joinQuoted_flatMap (items : List Written) :
    joinQuoted (items.flatMap fun item => words item.text.toList) = items.map fun item => item.word.toList := by
  induction items with
  | nil => simp [joinQuoted]
  | cons item later ih => rw [List.flatMap_cons,joinQuoted_written,ih,List.map_cons]

theorem tokenize_quoted (command : String) (nonempty : command ≠ "") (solid : ∀ c ∈ command.toList, isBlank c = false)
    (plain : ∀ c ∈ command.toList, isQuote c = false) (quotation : Quotation) :
    tokenize (command ++ " " ++ quotation.text) = [command,quotation.word] := by
  have joined := joinQuoted_flatMap [.bare command nonempty solid plain,.quoted quotation]
  have space : " ".toList = [' '] := rfl
  have cut : words (command ++ " " ++ quotation.text).toList =
      words command.toList ++ words quotation.text.toList := by
    rw [String.toList_append,String.toList_append,space,List.append_assoc,List.singleton_append]
    exact words_append_blank (by decide)
  rw [tokenize_eq,cut]
  simpa [Written.text,Written.word] using congrArg (List.map String.ofList) joined

/-- Words written in any of these ways and joined by single spaces are the tokens of the line. -/
theorem tokenize_written (items : List Written) :
    tokenize (" ".intercalate (items.map Written.text)) = items.map Written.word := by
  have space : " ".toList = [' '] := rfl
  have spelled : (" ".intercalate (items.map Written.text)).toList =
      [' '].intercalate (items.map fun item => item.text.toList) := by
    rw [String.toList_intercalate,space,List.map_map]
    rfl
  rw [tokenize_eq,spelled,words_intercalate,List.flatMap_map,joinQuoted_flatMap,List.map_map]
  simp [Function.comp_def]

example : tokenize "say \" it's \" -name='John Doe' ''" = ["say"," it's ","-name=John Doe",""] := by cbv

end TreeConsole.Text
