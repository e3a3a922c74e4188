import TreeConsole.Proofs.Chain.Scan
import Mathlib.Data.Int.Cast.Lemmas
import Mathlib.Data.List.Infix

/-! Quotes and parentheses, counted.
Where a scan stands behind a text can be told from the text alone: by the quote that it leaves open, and by how many more
parentheses it opens than it closes outside quotes. Balanced texts, matched parentheses and the pieces between separators are
described by these two, and are what a scan finds.
-/
namespace TreeConsole.Chain
open Text

/-- The quote that is open behind one more character. -/
def turn : Option Char → Char → Option Char
  | none,c => if isQuote c then some c else none
  | some quote,c => if c = quote then none else some quote

/-- The quote that is open behind a text. -/
def openQuote (quote : Option Char) (cs : List Char) : Option Char := cs.foldl turn quote

/-- The characters that stand outside quotes. -/
def bare : Option Char → List Char → List Char
  | _,[] => []
  | quote,c :: rest => if quote = none ∧ isQuote c = false then c :: bare (turn quote c) rest else bare (turn quote c) rest

/-- How many more parentheses are opened than closed outside quotes. -/
def level (quote : Option Char) (cs : List Char) : Int := (bare quote cs).count '(' - (bare quote cs).count ')'

/-- Behind this text nothing is open. -/
def Outside (cs : List Char) : Prop := openQuote none cs = none ∧ level none cs = 0

/-- A text that leaves nothing open and closes nothing that it did not open. -/
structure Balanced (cs : List Char) : Prop where
  outside : Outside cs
  above : ∀ front, front <+: cs → 0 ≤ level none front

/-- A text that begins with a parenthesis, which its last character closes and no earlier one. -/
structure Matched (cs : List Char) : Prop where
  opens : ['('] <+: cs
  outside : Outside cs
  within : ∀ front, front <+: cs → front ≠ [] → front ≠ cs → 0 < level none front

/-- The pieces of a text between the separators that stand where nothing is open. -/
structure Parts (separator : Char) (cs : List Char) (parts : List (List Char)) : Prop where
  some : parts ≠ []
  joined : cs = [separator].intercalate parts
  outside : ∀ part ∈ parts, Outside part
  uncut : ∀ part ∈ parts, ∀ front, front ++ [separator] <+: part → ¬ Outside front

variable {quote : Option Char} {separator c : Char} {state next last : Nesting} {cs rest front inner : List Char}
variable {parts : List (List Char)}

/-! Counting, one character after another -/

theorem openQuote_append : openQuote quote (cs ++ rest) = openQuote (openQuote quote cs) rest := List.foldl_append

theorem bare_append : bare quote (cs ++ rest) = bare quote cs ++ bare (openQuote quote cs) rest := by
  induction cs generalizing quote with
  | nil => rfl
  | cons c later ih =>
    have behind : openQuote quote (c :: later) = openQuote (turn quote c) later := rfl
    rw [List.cons_append,bare,bare,ih,behind]
    split <;> rfl

theorem level_append : level quote (cs ++ rest) = level quote cs + level (openQuote quote cs) rest := by
  simp only [level,bare_append,List.count_append]
  omega

theorem level_cons : level quote (c :: rest) = level quote [c] + level (turn quote c) rest :=
  @level_append quote [c] rest

theorem level_quoted (quote : Char) : level (some quote) [c] = 0 := by
  simp [level,bare]

theorem level_unquoted : level none [c] = if c = '(' then 1 else if c = ')' then -1 else 0 := by
  by_cases opens : c = '('
  · subst opens
    rfl
  by_cases closes : c = ')'
  · subst closes
    rfl
  have absent : level none [c] = 0 := by
    cases isQuote : isQuote c with
    | true => simp [level,bare,isQuote]
    | false => simp [level,bare,isQuote,opens,closes]
  rw [absent,if_neg opens,if_neg closes]

/-- The nesting behind a character counts that character. -/
theorem after_eq_some_iff : state.after c = some next ↔
    turn state.quote c = next.quote ∧ state.depth + level state.quote [c] = next.depth := by
  obtain ⟨quote,depth⟩ := state
  obtain ⟨inside,below⟩ := next
  cases quote with
  | some quote =>
    simp only [Nesting.after,turn,level_quoted]
    split <;> simp
  | none =>
    simp only [Nesting.after,turn,level_unquoted]
    split
    next isQuote =>
      have notOpen : c ≠ '(' := by rintro rfl; cases isQuote
      have notClose : c ≠ ')' := by rintro rfl; cases isQuote
      simp [notOpen,notClose]
    next =>
      split
      next => simp [← Int.natCast_inj]
      next =>
        split
        next =>
          split
          next ground => simp [ground]
          next =>
            simp
            omega
        next => simp

theorem after_eq_none_iff : state.after c = none ↔ state.depth + level state.quote [c] < 0 := by
  rw [Option.eq_none_iff_forall_ne_some,← Int.not_le]
  constructor
  · intro stuck above
    let next : Nesting := ⟨turn state.quote c,(state.depth + level state.quote [c]).toNat⟩
    have step : state.after c = some next := after_eq_some_iff.mpr ⟨rfl,(Int.toNat_of_nonneg above).symm⟩
    exact stuck next step
  · intro below next step
    exact below ((after_eq_some_iff.mp step).2 ▸ Int.natCast_nonneg next.depth)

/-! Texts that pass, by their parts in front -/

theorem forall_begins_cons {P : List Char → Prop} :
    (∀ front, front <+: c :: rest → P front) ↔ P [] ∧ ∀ front, front <+: rest → P (c :: front) := by
  simp only [List.prefix_cons_iff,or_imp,forall_and,forall_eq]
  exact and_congr_right fun _ => ⟨fun every front begins => every _ ⟨front,rfl,begins⟩,
    fun every _ ⟨front,same,begins⟩ => same ▸ every front begins⟩

theorem forall_before_cons {P : List Char → Prop} : (∀ front, front ++ [separator] <+: c :: rest → P front) ↔
    (c = separator → P []) ∧ ∀ front, front ++ [separator] <+: rest → P (c :: front) := by
  constructor
  · intro every
    refine ⟨?_,fun front begins => every (c :: front) (List.cons_prefix_cons.mpr ⟨rfl,begins⟩)⟩
    rintro rfl
    exact every [] (List.cons_prefix_cons.mpr ⟨rfl,List.nil_prefix⟩)
  · rintro ⟨here,later⟩ front begins
    cases front with
    | nil => exact here (List.cons_prefix_cons.mp begins).1.symm
    | cons d more =>
      obtain ⟨rfl,behind⟩ := List.cons_prefix_cons.mp begins
      exact later more behind

theorem passes_cons_iff : Passes separator state (c :: cs) last ↔
    ¬ (c = separator ∧ state = .outside) ∧ ∃ next, state.after c = some next ∧ Passes separator next cs last := by
  constructor
  · rintro (_ | ⟨within,step,later⟩)
    exact ⟨within,_,step,later⟩
  · rintro ⟨within,next,step,later⟩
    exact .cons within step later

theorem eq_outside_iff : state = .outside ↔ openQuote state.quote [] = none ∧ state.depth + level state.quote [] = 0 := by
  obtain ⟨quote,depth⟩ := state
  simp [Nesting.outside,openQuote,level,bare]

/-- A text passes when no part in front of anything goes below zero, and none in front of a separator is outside. -/
theorem passes_iff : Passes separator state cs last ↔
    openQuote state.quote cs = last.quote ∧ state.depth + level state.quote cs = last.depth ∧
    (∀ front, front <+: cs → 0 ≤ state.depth + level state.quote front) ∧
    ∀ front, front ++ [separator] <+: cs →
      ¬ (openQuote state.quote front = none ∧ state.depth + level state.quote front = 0) := by
  -- On the text, for every nesting at once: a step moves the level of each part in front to the level behind the step.
  induction cs generalizing state with
  | nil =>
    have ends : Passes separator state [] last ↔ state = last := ⟨fun | .nil => rfl,fun same => same ▸ .nil⟩
    obtain ⟨quote,depth⟩ := state
    obtain ⟨inside,below⟩ := last
    simp [ends,openQuote,level,bare]
  | cons c rest ih =>
    rw [passes_cons_iff,forall_begins_cons,forall_before_cons,← eq_outside_iff]
    cases step : state.after c with
    | none =>
      have below := after_eq_none_iff.mp step
      constructor
      · rintro ⟨_,next,passed,_⟩
        cases passed
      · rintro ⟨_,_,⟨_,above⟩,_⟩
        exact absurd (above [] List.nil_prefix) (by omega)
    | some next =>
      obtain ⟨turned,moved⟩ := after_eq_some_iff.mp step
      have behind (front : List Char) :
          state.depth + level state.quote (c :: front) = next.depth + level next.quote front := by
        rw [level_cons,turned,← Int.add_assoc,moved]
      have inside (front : List Char) : openQuote state.quote (c :: front) = openQuote next.quote front := by
        rw [← turned]
        rfl
      have start : 0 ≤ state.depth + level state.quote [] := by
        simp [level,bare]
      simp only [behind,inside,Option.some.injEq,exists_eq_left',ih,start,true_and,not_and]
      constructor
      · rintro ⟨within,closed,ground,above,uncut⟩
        exact ⟨closed,ground,above,within,uncut⟩
      · rintro ⟨closed,ground,above,within,uncut⟩
        exact ⟨within,closed,ground,above,uncut⟩

theorem passes_outside_iff : Passes separator .outside cs .outside ↔
    Balanced cs ∧ ∀ front, front ++ [separator] <+: cs → ¬ Outside front := by
  have unquoted : Nesting.outside.quote = none := rfl
  have ground : (Nesting.outside.depth : Int) = 0 := rfl
  rw [passes_iff]
  simp only [unquoted,ground,Int.zero_add]
  constructor
  · rintro ⟨closed,ground,above,uncut⟩
    exact ⟨⟨⟨closed,ground⟩,above⟩,uncut⟩
  · rintro ⟨⟨⟨closed,ground⟩,above⟩,uncut⟩
    exact ⟨closed,ground,above,uncut⟩

/-! Balanced texts -/

theorem forall_begins_append {P : List Char → Prop} : (∀ front, front <+: cs ++ rest → P front) ↔
    (∀ front, front <+: cs → P front) ∧ ∀ front, front <+: rest → P (cs ++ front) := by
  induction cs generalizing P with
  | nil =>
    have one : (∀ front, front <+: [] → P front) ↔ P [] := by simp
    rw [one]
    exact ⟨fun every => ⟨every [] List.nil_prefix,every⟩,And.right⟩
  | cons c later ih =>
    rw [List.cons_append,forall_begins_cons,forall_begins_cons,ih,and_assoc]
    rfl

theorem outside_nil : Outside [] := ⟨rfl,rfl⟩

theorem level_behind (outside : Outside front) (cs : List Char) : level none (front ++ cs) = level none cs := by
  rw [level_append,outside.1,outside.2,Int.zero_add]

theorem outside_append (outside : Outside front) : Outside (front ++ rest) ↔ Outside rest := by
  rw [Outside,openQuote_append,outside.1,level_behind outside,Outside]

theorem balanced_iff : Balanced cs ↔ Outside cs ∧ ∀ front, front <+: cs → 0 ≤ level none front :=
  ⟨fun ⟨outside,above⟩ => ⟨outside,above⟩,fun ⟨outside,above⟩ => ⟨outside,above⟩⟩

theorem balanced_append (outside : Outside front) : Balanced (front ++ rest) ↔ Balanced front ∧ Balanced rest := by
  simp only [balanced_iff,outside_append outside,forall_begins_append,level_behind outside]
  tauto

theorem balanced_intercalate (neutral : Balanced [separator]) (outside : ∀ part ∈ parts, Outside part) :
    Balanced ([separator].intercalate parts) ↔ ∀ part ∈ parts, Balanced part := by
  induction parts with
  | nil =>
    have nothing : Balanced [] := ⟨outside_nil,by simp [level,bare]⟩
    simpa using nothing
  | cons first more ih =>
    cases more with
    | nil => simp
    | cons second later =>
      obtain ⟨here,behind⟩ := List.forall_mem_cons.mp outside
      rw [List.intercalate_cons_cons,List.append_assoc,balanced_append here,balanced_append neutral.outside,ih behind,
        List.forall_mem_cons (a := first)]
      exact and_congr_right fun _ => ⟨And.right,fun later => ⟨neutral,later⟩⟩

theorem Balanced.plain (plain : ∀ c ∈ cs, Plain '(' c) : Balanced cs := (passes_outside_iff.mp (.plain plain)).1

/-- A scan from the outside finds the pieces of a balanced text, and of no other. -/
theorem scan_iff_parts (neutral : Balanced [separator]) :
    scan separator .outside cs = some parts ↔ Balanced cs ∧ Parts separator cs parts := by
  rw [scan_outside_iff]
  simp only [passes_outside_iff]
  constructor
  · rintro ⟨some,rfl,pass⟩
    have outside : ∀ part ∈ parts, Outside part := fun part member => (pass part member).1.outside
    have balanced := (balanced_intercalate neutral outside).mpr fun part member => (pass part member).1
    exact ⟨balanced,some,rfl,outside,fun part member => (pass part member).2⟩
  · rintro ⟨balanced,some,rfl,outside,uncut⟩
    have each := (balanced_intercalate neutral outside).mp balanced
    exact ⟨some,rfl,fun part member => ⟨each part member,uncut part member⟩⟩

/-! Matched parentheses -/

theorem level_opened (cs : List Char) : level none ('(' :: cs) = 1 + level none cs := level_cons

theorem level_neg_iff : level quote [c] < 0 ↔ quote = none ∧ c = ')' := by
  cases quote with
  | some quote => simp [level_quoted]
  | none =>
    rw [level_unquoted]
    split
    next opens => simp [opens]
    next =>
      split
      next closes => simp [closes]
      next notClose => simp [notClose]

/-- The proper parts in front of an enclosed text, as parts of the text. -/
theorem forall_within_iff {d : Char} {P : List Char → Prop} :
    (∀ front, front <+: c :: (cs ++ [d]) → front ≠ [] → front ≠ c :: (cs ++ [d]) → P front) ↔
      ∀ front, front <+: cs → P (c :: front) := by
  constructor
  · intro every front begins
    have shorter : c :: front ≠ c :: (cs ++ [d]) := by
      intro same
      have length := congrArg List.length same
      have bound := begins.length_le
      simp only [List.length_cons,List.length_append,List.length_nil] at length
      omega
    have longer := begins.trans (List.prefix_append cs [d])
    exact every (c :: front) (List.cons_prefix_cons.mpr ⟨rfl,longer⟩) (List.cons_ne_nil c front) shorter
  · intro every front begins nonempty shorter
    rcases List.prefix_cons_iff.mp begins with rfl | ⟨more,rfl,behind⟩
    · exact absurd rfl nonempty
    · rcases List.prefix_concat_iff.mp behind with rfl | inside
      · exact absurd rfl shorter
      · exact every more inside

/-- Inside a matched parenthesis stands a balanced text. -/
theorem matched_iff : Matched ('(' :: rest) ↔ ∃ inner, rest = inner ++ [')'] ∧ Balanced inner := by
  constructor
  · rintro ⟨_,⟨_,ground⟩,within⟩
    obtain rfl | ⟨inner,c,rfl⟩ := rest.eq_nil_or_concat'
    · cases ground
    have above : ∀ front, front <+: inner → 0 ≤ level none front := by
      intro front begins
      have opened := forall_within_iff.mp within front begins
      rw [level_opened] at opened
      omega
    -- The last character has to bring the level down to zero, which only a parenthesis outside quotes does.
    have least := above inner List.prefix_rfl
    rw [level_opened,level_append] at ground
    have falls : level (openQuote none inner) [c] < 0 := by omega
    obtain ⟨unquoted,rfl⟩ := level_neg_iff.mp falls
    have last : level (openQuote none inner) [')'] = -1 := by rw [unquoted]; rfl
    exact ⟨inner,rfl,⟨unquoted,by omega⟩,above⟩
  · rintro ⟨inner,rfl,⟨unquoted,flat⟩,above⟩
    have closed : openQuote none ('(' :: (inner ++ [')'])) = none := by
      have opened : openQuote none ('(' :: (inner ++ [')'])) = openQuote none (inner ++ [')']) := rfl
      rw [opened,openQuote_append,unquoted]
      rfl
    have ground : level none ('(' :: (inner ++ [')'])) = 0 := by
      rw [level_opened,level_append,flat,unquoted]
      rfl
    refine ⟨⟨_,rfl⟩,⟨closed,ground⟩,forall_within_iff.mpr fun front begins => ?_⟩
    have least := above front begins
    rw [level_opened]
    omega

theorem Matched.balanced (matched : Matched cs) : Balanced cs := by
  refine ⟨matched.outside,fun front begins => ?_⟩
  by_cases nonempty : front = []
  · subst nonempty
    exact Int.le_refl 0
  by_cases shorter : front = cs
  · subst shorter
    exact Int.le_of_eq matched.outside.2.symm
  exact Int.le_of_lt (matched.within front begins nonempty shorter)

/-- No matched text goes on behind another. -/
theorem Matched.eq_nil (matched : Matched cs) (longer : Matched (cs ++ rest)) : rest = [] := by
  obtain ⟨more,rfl⟩ := matched.opens
  by_contra some
  have positive := longer.within _ (List.prefix_append _ rest) (List.cons_ne_nil '(' more) (by simpa using some)
  exact absurd matched.outside.2 (by omega)

end TreeConsole.Chain
