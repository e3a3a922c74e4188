import TreeConsole.Proofs.Text.Quoting

/-! Quoted runs as groups of tokens.
Joining the quoted runs of a list of tokens puts the tokens into groups, one behind the other, and turns every
group into one token. A group is a token alone, or the tokens of one quoted run up to the first place that closes it.
-/
namespace TreeConsole.Text
variable {token front inner text : String} {quote : Char} {middle behind rest : List String}

def EndsWith (quote : Char) (token : String) : Prop := token.toList.getLast? = some quote

instance : DecidablePred (EndsWith quote) := fun token => inferInstanceAs (Decidable (token.toList.getLast? = some quote))

theorem endsWith_iff : EndsWith quote token ↔ ∃ text, token = text ++ String.singleton quote := by
  constructor
  · intro ends
    obtain ⟨cs,spelled⟩ := List.getLast?_eq_some_iff.mp ends
    exact ⟨String.ofList cs,String.toList_inj.mp (by simp [spelled])⟩
  · rintro ⟨text,rfl⟩
    simp [EndsWith]

/-! Where a run opens and closes -/

/-- What may stand before an opening quote: nothing, or the text of the token through its first equals sign. -/
def IsFront (front token : String) : Prop :=
  front = "" ∨ ∃ name after, '=' ∉ name.toList ∧ front = name ++ "=" ∧ token = front ++ after

structure Opens (token front : String) (quote : Char) (inner : String) : Prop where
  isQuote : isQuote quote = true
  spelled : token = front ++ String.singleton quote ++ inner
  isFront : IsFront front token
  start : front ≠ "" → ∀ c, token.toList.head? = some c → Text.isQuote c = false

theorem opening_cons (isQuote : isQuote quote = true) (cs : List Char) : opening (quote :: cs) = some ([],quote,cs) := by
  simp [opening,isQuote]

theorem opening_of_opens (opens : Opens token front quote inner) :
    opening token.toList = some (front.toList,quote,inner.toList) := by
  obtain ⟨isQuote,rfl,isFront,start⟩ := opens
  rcases isFront with rfl | ⟨name,after,noEquals,rfl,-⟩
  · simpa using opening_cons isQuote inner.toList
  · have named : ∀ c, name.toList.head? = some c → Text.isQuote c = false := by
      intro c first
      refine start (by simp) c ?_
      simp [List.head?_append,first]
    simpa using opening_assigned noEquals named isQuote

theorem opens_of_opening {front inner : List Char} (found : opening token.toList = some (front,quote,inner)) :
    Opens token (String.ofList front) quote (String.ofList inner) := by
  unfold opening at found
  split at found
  next => cases found
  next first more spelled =>
    split at found
    next isQuote =>
      cases found
      exact ⟨isQuote,String.toList_inj.mp (by simp [spelled]),.inl (by simp),by simp⟩
    next bare =>
      split at found
      next before mark after cutAt =>
        split at found
        next isQuote =>
          cases found
          obtain ⟨whole,noEquals⟩ := cut_eq_append cutAt
          have rebuilt : token = String.ofList (before ++ ['=']) ++ (String.singleton quote ++ String.ofList inner) :=
            String.toList_inj.mp (by simp [whole])
          refine ⟨isQuote,by rw [rebuilt,String.append_assoc],.inr ⟨String.ofList before,_,?_,?_,rebuilt⟩,?_⟩
          · simpa using noEquals
          · exact String.toList_inj.mp (by simp)
          · intro _ c head
            rw [spelled] at head
            cases head
            simpa using bare
        next => cases found
      next => cases found

theorem opening_eq_none_iff : opening token.toList = none ↔ ∀ front quote inner, ¬ Opens token front quote inner := by
  constructor
  · intro missing front quote inner opens
    rw [opening_of_opens opens] at missing
    cases missing
  · intro closed
    cases found : opening token.toList with
    | none => rfl
    | some parts => exact absurd (opens_of_opening found) (closed _ _ _)

theorem closing_eq_none_iff : closing quote token.toList = none ↔ ¬ EndsWith quote token := by
  simp [closing,EndsWith]

/-- The first token that ends with the quote closes the run. -/
theorem closeRun_append (pending : ∀ token ∈ middle, ¬ EndsWith quote token) (rest : List (List Char)) :
    closeRun quote (middle.map String.toList ++ (text ++ String.singleton quote).toList :: rest) =
      some (middle.map String.toList ++ [text.toList],rest) := by
  induction middle with
  | nil => simp [closeRun,closing_concat]
  | cons token later ih =>
    have open' : closing quote token.toList = none := closing_eq_none_iff.mpr (pending token (by simp))
    have found := ih fun token member => pending token (by simp [member])
    rw [List.map_cons,List.cons_append,closeRun,open',found]
    rfl

theorem closeRun_eq_none (pending : ∀ token ∈ rest, ¬ EndsWith quote token) :
    closeRun quote (rest.map String.toList) = none := by
  induction rest with
  | nil => rfl
  | cons token later ih =>
    have open' : closing quote token.toList = none := closing_eq_none_iff.mpr (pending token (by simp))
    have unclosed := ih fun token member => pending token (by simp [member])
    rw [List.map_cons,closeRun,open',unclosed]
    rfl

/-- The first token that ends with a quote, and what stands before and behind it. -/
theorem exists_closing (quote : Char) (rest : List String) : (∀ token ∈ rest, ¬ EndsWith quote token) ∨
    ∃ middle text behind, rest = middle ++ (text ++ String.singleton quote) :: behind ∧
      ∀ token ∈ middle, ¬ EndsWith quote token := by
  cases found : rest.find? (fun token => decide (EndsWith quote token)) with
  | none =>
    left
    simpa using found
  | some last =>
    right
    obtain ⟨ends,middle,behind,cut,pending⟩ := List.find?_eq_some_iff_append.mp found
    obtain ⟨text,rfl⟩ := endsWith_iff.mp (of_decide_eq_true ends)
    exact ⟨middle,text,behind,cut,by simpa using pending⟩

/-! What the first token becomes -/

theorem mergeQuoted_plain (closed : ∀ front quote inner, ¬ Opens token front quote inner) (rest : List String) :
    mergeQuoted (token :: rest) = token :: mergeQuoted rest := by
  have none := opening_eq_none_iff.mpr closed
  rw [mergeQuoted,List.map_cons,joinQuoted,none]
  simp [mergeQuoted]

theorem mergeQuoted_inside (opens : Opens token front quote (text ++ String.singleton quote)) (rest : List String) :
    mergeQuoted (token :: rest) = (front ++ text) :: mergeQuoted rest := by
  rw [mergeQuoted,List.map_cons,joinQuoted,opening_of_opens opens]
  simp [mergeQuoted,closing_concat]

theorem mergeQuoted_across (opens : Opens token front quote inner) (open' : ¬ EndsWith quote inner)
    (pending : ∀ token ∈ middle, ¬ EndsWith quote token) (behind : List String) :
    mergeQuoted (token :: (middle ++ (text ++ String.singleton quote) :: behind)) =
      (front ++ " ".intercalate (inner :: (middle ++ [text]))) :: mergeQuoted behind := by
  have space : " ".toList = [' '] := rfl
  have closed := @closeRun_append text quote middle pending (behind.map String.toList)
  rw [mergeQuoted,List.map_cons,List.map_append,List.map_cons,
    joinQuoted_opened (opening_of_opens opens) (closing_eq_none_iff.mpr open'),closed]
  simp only [List.map_cons,mergeQuoted]
  congr 1
  exact String.toList_inj.mp (by simp [unwords,String.toList_intercalate,space])

theorem mergeQuoted_unclosed (opens : Opens token front quote inner) (open' : ¬ EndsWith quote inner)
    (pending : ∀ token ∈ rest, ¬ EndsWith quote token) : mergeQuoted (token :: rest) = token :: mergeQuoted rest := by
  have unclosed := closeRun_eq_none pending
  rw [mergeQuoted,List.map_cons,joinQuoted_opened (opening_of_opens opens) (closing_eq_none_iff.mpr open'),unclosed]
  simp [mergeQuoted]

/-! Groups -/

/-- Consecutive tokens, at least one, and the token they become. -/
structure Group where
  first : String
  absorbed : List String
  result : String

namespace Group

def tokens (group : Group) : List String := group.first :: group.absorbed

/-- A token that is kept, alone. -/
structure Kept (group : Group) : Prop where
  alone : group.absorbed = []
  same : group.result = group.first

/-- The tokens of a group are its result and one pair of quotes. -/
structure Unquoted (group : Group) (front : String) (quote : Char) (text : String) : Prop where
  isQuote : isQuote quote = true
  isFront : IsFront front group.first
  result : group.result = front ++ text
  spelled : " ".intercalate group.tokens = front ++ String.singleton quote ++ text ++ String.singleton quote

/-- The group that the first of its tokens opens, with the tokens behind the group. -/
inductive Formed (group : Group) (behind : List String) : Prop where
  | plain (closed : ∀ front quote inner, ¬ Opens group.first front quote inner) (kept : group.Kept)
  | inside {front text : String} {quote : Char} (opens : Opens group.first front quote (text ++ String.singleton quote))
      (alone : group.absorbed = []) (result : group.result = front ++ text)
  | across {front inner text : String} {quote : Char} {middle : List String}
      (opens : Opens group.first front quote inner) (open' : ¬ EndsWith quote inner)
      (pending : ∀ token ∈ middle, ¬ EndsWith quote token)
      (absorbed : group.absorbed = middle ++ [text ++ String.singleton quote])
      (result : group.result = front ++ " ".intercalate (inner :: (middle ++ [text])))
  | unclosed {front inner : String} {quote : Char} (opens : Opens group.first front quote inner)
      (open' : ¬ EndsWith quote inner) (pending : ∀ token ∈ behind, ¬ EndsWith quote token) (kept : group.Kept)

theorem Formed.kept_or_unquoted {group : Group} (formed : group.Formed behind) :
    group.Kept ∨ ∃ front quote text, group.Unquoted front quote text := by
  cases formed with
  | plain _ kept => exact .inl kept
  | unclosed _ _ _ kept => exact .inl kept
  | @inside front text quote opens alone result =>
    refine .inr ⟨front,quote,text,opens.isQuote,opens.isFront,result,?_⟩
    rw [tokens,alone,opens.spelled]
    exact String.toList_inj.mp (by simp)
  | @across front inner text quote middle opens _ _ absorbed result =>
    refine .inr ⟨front,quote,_,opens.isQuote,opens.isFront,result,?_⟩
    rw [tokens,absorbed,opens.spelled]
    exact String.toList_inj.mp (by simp [String.toList_intercalate,intercalate_cons])

end Group

/-- The first token opens a group, and the tokens behind the group are joined by themselves. -/
theorem exists_group (token : String) (rest : List String) : ∃ (group : Group) (behind : List String),
    token :: rest = group.tokens ++ behind ∧ mergeQuoted (token :: rest) = group.result :: mergeQuoted behind ∧
      group.Formed behind := by
  cases found : opening token.toList with
  | none =>
    have closed := opening_eq_none_iff.mp found
    exact ⟨⟨token,[],token⟩,rest,rfl,mergeQuoted_plain closed rest,.plain closed ⟨rfl,rfl⟩⟩
  | some parts =>
    have opens := opens_of_opening found
    generalize String.ofList parts.1 = front, String.ofList parts.2.2 = inner, parts.2.1 = quote at opens
    by_cases ends : EndsWith quote inner
    · obtain ⟨text,rfl⟩ := endsWith_iff.mp ends
      exact ⟨⟨token,[],front ++ text⟩,rest,rfl,mergeQuoted_inside opens rest,.inside opens rfl rfl⟩
    · rcases exists_closing quote rest with pending | ⟨middle,text,behind,rfl,pending⟩
      · exact ⟨⟨token,[],token⟩,rest,rfl,mergeQuoted_unclosed opens ends pending,.unclosed opens ends pending ⟨rfl,rfl⟩⟩
      · refine ⟨⟨token,middle ++ [text ++ String.singleton quote],_⟩,behind,?_,
          mergeQuoted_across opens ends pending behind,.across opens ends pending rfl rfl⟩
        simp [Group.tokens]

/-- Joining the quoted runs loses, doubles and reorders nothing: one group of tokens behind the other becomes one
token each, either the token of the group itself or the text of the group without one pair of quotes. -/
theorem mergeQuoted_groups (tokens : List String) : ∃ groups : List Group,
    groups.flatMap Group.tokens = tokens ∧ mergeQuoted tokens = groups.map Group.result ∧
    (∀ group ∈ groups, group.Kept ∨ ∃ front quote text, group.Unquoted front quote text) ∧
    ∀ before group after, groups = before ++ group :: after → group.Formed (after.flatMap Group.tokens) := by
  induction size : tokens.length using Nat.strongRecOn generalizing tokens with
  | ind n ih =>
    cases tokens with
    | nil => exact ⟨[],rfl,by simp [mergeQuoted,joinQuoted],by simp,by simp⟩
    | cons token rest =>
      obtain ⟨group,behind,cut,joined,formed⟩ := exists_group token rest
      have shorter : behind.length < n := by
        rw [← size,cut,List.length_append,Group.tokens,List.length_cons]
        omega
      obtain ⟨groups,rebuilt,results,faithful,followed⟩ := ih behind.length shorter behind rfl
      refine ⟨group :: groups,by rw [List.flatMap_cons,rebuilt,cut],by rw [joined,results,List.map_cons],?_,?_⟩
      · rw [List.forall_mem_cons]
        exact ⟨formed.kept_or_unquoted,faithful⟩
      · intro before found after split
        cases before with
        | nil =>
          cases split
          rw [rebuilt]
          exact formed
        | cons _ later =>
          rw [List.cons_append,List.cons.injEq] at split
          exact followed later found after split.2

example : mergeQuoted ["'","x'","y='","\"z"] = [" x","y='","\"z"] := by cbv

end TreeConsole.Text
