import TreeConsole.Proofs.Signature.Arrangement
import TreeConsole.Proofs.Success
import Mathlib.Algebra.GroupWithZero.Nat
import Mathlib.Data.List.Forall2
import Mathlib.Data.List.SplitLengths

/-! Positional tokens and the runs of the arguments.
Every argument reads a run of tokens, and the runs follow one another. An argument takes one token, but the first that
may take many leaves just one for each argument behind it. No run reaches beyond the tokens, and when there is a token for
every argument none is lost on the way.
-/
namespace TreeConsole

def ArgumentSlot.isMany (slot : ArgumentSlot) : Bool := Shapes.hasArray slot.shapes

namespace Signature
variable {sig : Signature} {slot : ArgumentSlot} {slots : List ArgumentSlot} {tokens : List String} {available : Nat}

/-- How many of the available tokens the arguments take, one after the other. -/
def shares : (available : Nat) → List ArgumentSlot → List Nat
  | _,[] => []
  | available,slot :: later =>
    let count := share slot available later.length
    count :: shares (available - count) later

/-- Where the run of the argument in a place starts, and the run before it stops. -/
def runStart (slots : List ArgumentSlot) (available i : Nat) : Nat := ((shares available slots).take i).sum

/-- The runs of tokens that the arguments read. A run is empty when no token is left for it. -/
def runs (slots : List ArgumentSlot) (tokens : List String) : List (List String) :=
  (shares tokens.length slots).splitLengths tokens

def surplus (slots : List ArgumentSlot) (tokens : List String) : List String :=
  tokens.drop (shares tokens.length slots).sum

/-- What an argument makes of its run: an entry, or the reason why binding stops. -/
def readRun (sig : Signature) (slot : ArgumentSlot) (run : List String) : Except BindingError (String × Value) :=
  if run.isEmpty then throw (.missingArgument sig.name slot.name sig.usage)
  else match Shapes.coerceTokens slot.shapes slot.choices run with
    | none =>
      throw (.invalidValue sig.name slot.name (" ".intercalate run) (Shapes.expectation slot.shapes slot.choices))
    | some v => pure (slot.name,v)

def Accepts (slot : ArgumentSlot) (run : List String) : Prop :=
  (Shapes.coerceTokens slot.shapes slot.choices run).isSome

/-- Tokens dealt out in runs, one to each argument in turn, with a surplus that no argument takes. -/
structure Dealt (slots : List ArgumentSlot) (tokens : List String) (runs : List (List String)) (surplus : List String) :
    Prop where
  whole : runs.flatten ++ surplus = tokens
  each : runs.length = slots.length
  nonempty : ∀ run ∈ runs, run ≠ []
  single : ∀ (i : Nat) slot run, slots[i]? = some slot → runs[i]? = some run → ¬ slot.isMany → run.length = 1
  first : ∀ (i : Nat) slot run, slots[i]? = some slot → runs[i]? = some run → slot.isMany →
    ¬ (slots.take i).any ArgumentSlot.isMany → run.length = tokens.length - (slots.length - 1)
  later : ∀ (i : Nat) run, runs[i]? = some run → (slots.take i).any ArgumentSlot.isMany → run.length = 1
  surplus : surplus.length = if slots.any ArgumentSlot.isMany then 0 else tokens.length - slots.length

/-! Shares -/

theorem share_pos (available later : Nat) : 0 < share slot available later := by
  unfold share
  split <;> omega

/-- As long as a token is left, an argument takes no more than there are. -/
theorem share_le (some : 0 < available) (later : Nat) : share slot available later ≤ available := by
  unfold share
  split <;> omega

theorem share_single (single : ¬ slot.isMany) (later : Nat) : share slot available later = 1 :=
  if_neg single

theorem share_many (many : slot.isMany) {later : Nat} (enough : later < available) :
    share slot available later = available - later := by
  have taken : share slot available later = max (available - later) 1 := if_pos many
  omega

/-- An argument leaves a token for each of those behind it. -/
theorem share_leaves {later : Nat} (enough : later < available) : later ≤ available - share slot available later := by
  unfold share
  split <;> omega

theorem share_scarce {later : Nat} (scarce : available ≤ later + 1) : share slot available later = 1 := by
  unfold share
  split <;> omega

@[simp]
theorem length_shares (available : Nat) (slots : List ArgumentSlot) : (shares available slots).length = slots.length := by
  induction slots generalizing available with
  | nil => rfl
  | cons slot later ih => simp [shares,ih]

/-- When no more tokens than arguments are left, every argument takes one. -/
theorem shares_scarce (scarce : available ≤ slots.length) : shares available slots = List.replicate slots.length 1 := by
  induction slots generalizing available with
  | nil => rfl
  | cons slot later ih =>
    rw [List.length_cons] at scarce
    have behind : available - 1 ≤ later.length := by omega
    rw [shares,share_scarce scarce,ih behind,List.length_cons,List.replicate_succ]

/-- A run that starts among the tokens stops there. -/
theorem runStart_succ_le {i : Nat} (inside : runStart slots available i < available) :
    runStart slots available (i + 1) ≤ available := by
  unfold runStart at inside ⊢
  induction slots generalizing available i with
  | nil => simp [shares]
  | cons slot later ih =>
    rw [shares] at inside ⊢
    cases i with
    | zero =>
      simp only [List.take_zero,List.sum_nil] at inside
      simpa using share_le inside later.length
    | succ i =>
      simp only [List.take_succ_cons,List.sum_cons] at inside ⊢
      have behind := @ih (available - share slot available later.length) i (by omega)
      omega

/-- With a token for every argument, the first that may take many takes all that the others leave. -/
theorem shares_getElem? (enough : slots.length ≤ available) (i : Nat) : (shares available slots)[i]? =
    slots[i]?.map fun slot =>
      if slot.isMany ∧ ¬ (slots.take i).any ArgumentSlot.isMany then available - (slots.length - 1) else 1 := by
  induction slots generalizing available i with
  | nil => rfl
  | cons slot later ih =>
    rw [List.length_cons] at enough
    rw [shares]
    by_cases many : slot.isMany
    · -- What is left is one token for each argument behind.
      have rest : available - (available - later.length) = later.length := by omega
      rw [share_many many enough,rest,shares_scarce (Nat.le_refl _)]
      cases i with
      | zero => simp [many]
      | succ i =>
        have ones : (List.replicate later.length 1)[i]? = later[i]?.map fun _ => 1 := by
          rw [List.getElem?_replicate]
          split
          next inside => rw [List.getElem?_eq_getElem inside,Option.map_some]
          next outside => rw [List.getElem?_eq_none (Nat.le_of_not_lt outside),Option.map_none]
        simp [many,ones]
    · rw [share_single many]
      cases i with
      | zero => simp [many]
      | succ i =>
        rw [List.getElem?_cons_succ,List.getElem?_cons_succ,ih (by omega)]
        refine Option.map_congr fun slot found => ?_
        have inside : i < later.length := (List.getElem?_eq_some_iff.mp found).1
        have left : available - 1 - (later.length - 1) = available - later.length := by omega
        simp [many,left]

theorem sum_shares (enough : slots.length ≤ available) :
    (shares available slots).sum = if slots.any ArgumentSlot.isMany then available else slots.length := by
  induction slots generalizing available with
  | nil => rfl
  | cons slot later ih =>
    rw [List.length_cons] at enough
    rw [shares]
    by_cases many : slot.isMany
    · have rest : available - (available - later.length) = later.length := by omega
      rw [share_many many enough,rest,shares_scarce (Nat.le_refl _)]
      simp [many]
      omega
    · rw [share_single many,List.sum_cons,ih (by omega)]
      simp [many]
      split <;> omega

/-! Runs -/

theorem runs_cons (slot : ArgumentSlot) (later : List ArgumentSlot) (tokens : List String) : runs (slot :: later) tokens =
    tokens.take (share slot tokens.length later.length) ::
      runs later (tokens.drop (share slot tokens.length later.length)) := by
  rw [runs,shares,List.splitLengths_cons,runs,List.length_drop]

theorem fill_cons (slot : ArgumentSlot) (later : List ArgumentSlot) (tokens : List String) :
    sig.fill (slot :: later) tokens = (do
      let entry ← sig.readRun slot (tokens.take (share slot tokens.length later.length))
      let more ← sig.fill later (tokens.drop (share slot tokens.length later.length))
      pure (entry :: more)) := by
  have empty : (tokens.take (share slot tokens.length later.length)).isEmpty = tokens.isEmpty := by
    have some := @share_pos slot tokens.length later.length
    cases tokens with
    | nil => rw [List.take_nil]
    | cons => simpa using Nat.ne_of_gt some
  rw [fill,readRun,empty]
  split
  · rfl
  · dsimp only
    cases Shapes.coerceTokens slot.shapes slot.choices (tokens.take (share slot tokens.length later.length)) <;> rfl

/-- Each argument reads its run, in order, until one of them fails. -/
theorem fill_eq_mapM (slots : List ArgumentSlot) (tokens : List String) :
    sig.fill slots tokens = (slots.zip (runs slots tokens)).mapM fun (slot,run) => sig.readRun slot run := by
  induction slots generalizing tokens with
  | nil => rfl
  | cons slot later ih => rw [fill_cons,runs_cons,List.zip_cons_cons,List.mapM_cons,ih]

/-- With too few tokens some argument finds none, if not an earlier one refuses its token. -/
theorem fill_scarce (scarce : tokens.length < slots.length) : (∃ error, sig.fill slots tokens = .error error) ∧
    ((∀ (i : Nat) slot token, slots[i]? = some slot → tokens[i]? = some token → Accepts slot [token]) →
      ∃ slot, slots[tokens.length]? = some slot ∧
        sig.fill slots tokens = .error (.missingArgument sig.name slot.name sig.usage)) := by
  induction slots generalizing tokens with
  | nil => cases scarce
  | cons slot later ih =>
    cases tokens with
    | nil => exact ⟨⟨_,rfl⟩,fun _ => ⟨slot,rfl,rfl⟩⟩
    | cons token rest =>
      rw [List.length_cons,List.length_cons,Nat.add_lt_add_iff_right] at scarce
      obtain ⟨⟨error,failed⟩,missing⟩ := ih scarce
      have one : share slot (token :: rest).length later.length = 1 := share_scarce (by rw [List.length_cons]; omega)
      rw [fill_cons,one,List.take_succ_cons,List.take_zero,List.drop_succ_cons,List.drop_zero]
      constructor
      · rw [failed]
        cases sig.readRun slot [token] <;> exact ⟨_,rfl⟩
      · intro accepted
        obtain ⟨v,read⟩ := Option.isSome_iff_exists.mp (accepted 0 slot token rfl rfl)
        obtain ⟨last,place,fails⟩ := missing fun i slot token here there => accepted (i + 1) slot token here there
        refine ⟨last,place,?_⟩
        rw [fails,readRun,read]
        rfl

theorem readRun_ok_iff {run : List String} (some : run ≠ []) :
    (∃ entry, sig.readRun slot run = .ok entry) ↔ Accepts slot run := by
  rw [readRun,if_neg (by simpa using some),Accepts]
  cases Shapes.coerceTokens slot.shapes slot.choices run with
  | none => simp
  | some v => exact ⟨fun _ => rfl,fun _ => ⟨(slot.name,v),rfl⟩⟩

theorem readRun_eq_ok_iff {run : List String} {entry : String × Value} : sig.readRun slot run = .ok entry ↔
    run ≠ [] ∧ ∃ v, Shapes.coerceTokens slot.shapes slot.choices run = some v ∧ entry = (slot.name,v) := by
  unfold readRun
  cases run with
  | nil => simp [throw,throwThe,MonadExceptOf.throw]
  | cons token rest =>
    cases Shapes.coerceTokens slot.shapes slot.choices (token :: rest) with
    | none => simp [throw,throwThe,MonadExceptOf.throw]
    | some v => simp [pure,Except.pure,eq_comm]

/-- With a token for every argument, the arguments are filled exactly when each accepts its run. -/
theorem fill_ok_iff (enough : slots.length ≤ tokens.length) :
    (∃ arguments, sig.fill slots tokens = .ok arguments) ↔ List.Forall₂ Accepts slots (runs slots tokens) := by
  induction slots generalizing tokens with
  | nil => exact ⟨fun _ => .nil,fun _ => ⟨[],rfl⟩⟩
  | cons slot later ih =>
    have behind := @ih (tokens.drop (share slot tokens.length later.length)) (by
      rw [List.length_drop]
      exact share_leaves enough)
    have some : tokens.take (share slot tokens.length later.length) ≠ [] := by
      have taken := @share_pos slot tokens.length later.length
      have left : 0 < tokens.length := Nat.zero_lt_of_lt enough
      rw [← List.length_pos_iff,List.length_take]
      omega
    rw [runs_cons,List.forall₂_cons,← behind,← readRun_ok_iff some,fill_cons]
    constructor
    · rintro ⟨arguments,filled⟩
      obtain ⟨entry,read,filled⟩ := bind_eq_ok_iff.mp filled
      obtain ⟨more,rest,_⟩ := bind_eq_ok_iff.mp filled
      exact ⟨⟨entry,read⟩,more,rest⟩
    · rintro ⟨⟨entry,read⟩,more,rest⟩
      exact ⟨entry :: more,by rw [read,rest]; rfl⟩

theorem runs_getElem? (slots : List ArgumentSlot) (tokens : List String) (enough : slots.length ≤ tokens.length) (i : Nat) :
    (runs slots tokens)[i]?.map List.length = (shares tokens.length slots)[i]? := by
  have total : (shares tokens.length slots).sum ≤ tokens.length := by
    rw [sum_shares enough]
    split <;> omega
  rw [← List.getElem?_map,runs,List.map_splitLengths_length _ _ total]

theorem flatten_runs (slots : List ArgumentSlot) (tokens : List String) :
    (runs slots tokens).flatten = tokens.take (shares tokens.length slots).sum := by
  unfold runs
  generalize shares tokens.length slots = counts
  induction counts generalizing tokens with
  | nil => rfl
  | cons count rest ih => rw [List.splitLengths_cons,List.flatten_cons,ih,List.sum_cons,List.take_add]

theorem eq_extract_of_mem_runs {i : Nat} {run : List String} (taken : (runs slots tokens)[i]? = some run) :
    run = tokens.extract (runStart slots tokens.length i) (runStart slots tokens.length (i + 1)) := by
  unfold runs at taken
  unfold runStart
  generalize shares tokens.length slots = counts at taken ⊢
  induction counts generalizing tokens i with
  | nil => cases taken
  | cons count rest ih =>
    rw [List.splitLengths_cons] at taken
    cases i with
    | zero => simpa [eq_comm] using taken
    | succ i =>
      have behind := ih taken
      simp only [List.take_succ_cons,List.sum_cons,List.extract_eq_take_drop,List.drop_drop] at behind ⊢
      rw [behind,Nat.add_sub_add_left]

theorem dealt_runs (enough : slots.length ≤ tokens.length) :
    Dealt slots tokens (runs slots tokens) (surplus slots tokens) := by
  have lengths (i : Nat) (slot : ArgumentSlot) (run : List String) (place : slots[i]? = some slot)
      (taken : (runs slots tokens)[i]? = some run) : run.length =
        if slot.isMany ∧ ¬ (slots.take i).any ArgumentSlot.isMany then tokens.length - (slots.length - 1) else 1 := by
    have share := runs_getElem? slots tokens enough i
    rw [taken,shares_getElem? enough,place] at share
    exact Option.some.inj share
  have each : (runs slots tokens).length = slots.length := by rw [runs,List.length_splitLengths,length_shares]
  have slotOf {i : Nat} {run : List String} (taken : (runs slots tokens)[i]? = some run) : ∃ slot, slots[i]? = some slot := by
    obtain ⟨inside,_⟩ := List.getElem?_eq_some_iff.mp taken
    exact ⟨_,List.getElem?_eq_getElem (each ▸ inside)⟩
  refine ⟨?whole,each,?nonempty,?single,?first,?later,?surplus⟩
  case whole => rw [flatten_runs,surplus,List.take_append_drop]
  case nonempty =>
    intro run member empty
    obtain ⟨i,taken⟩ := List.mem_iff_getElem?.mp member
    obtain ⟨slot,place⟩ := slotOf taken
    have size := lengths i slot run place taken
    have inside := (List.getElem?_eq_some_iff.mp place).1
    rw [empty,List.length_nil] at size
    split at size <;> omega
  case single =>
    intro i slot run place taken single
    rw [lengths i slot run place taken,if_neg fun many => single many.1]
  case first =>
    intro i slot run place taken many first
    rw [lengths i slot run place taken,if_pos ⟨many,first⟩]
  case later =>
    intro i run taken earlier
    obtain ⟨slot,place⟩ := slotOf taken
    rw [lengths i slot run place taken,if_neg fun many => many.2 earlier]
  case surplus =>
    rw [surplus,List.length_drop,sum_shares enough]
    split <;> omega

/-- When the options of an input are found, its positional tokens fill the arguments in runs. No run reaches beyond the
tokens. With too few tokens binding fails, for want of the first argument without a token when the others accept theirs;
with enough of them it succeeds exactly when every argument accepts its run, and then no token is lost or used twice. -/
theorem bind_partition {positional : List String} {supplied : List (String × Value)}
    (scanned : sig.scan tokens = .ok ⟨positional,supplied⟩) :
    (sig.bind tokens).map Invocation.arguments =
      ((sig.arguments.zip (runs sig.arguments positional)).mapM fun (slot,run) => sig.readRun slot run).map
        (tabulate .empty) ∧
    (∀ (i : Nat) run, (runs sig.arguments positional)[i]? = some run →
      run = positional.extract (runStart sig.arguments positional.length i)
          (runStart sig.arguments positional.length (i + 1)) ∧
        (runStart sig.arguments positional.length i < positional.length →
          runStart sig.arguments positional.length (i + 1) ≤ positional.length)) ∧
    (positional.length < sig.arguments.length → (∃ error, sig.bind tokens = .error error) ∧
      ((∀ (i : Nat) slot token, sig.arguments[i]? = some slot → positional[i]? = some token → Accepts slot [token]) →
        ∃ slot, sig.arguments[positional.length]? = some slot ∧
          sig.bind tokens = .error (.missingArgument sig.name slot.name sig.usage))) ∧
    (sig.arguments.length ≤ positional.length →
      ((∃ inv, sig.bind tokens = .ok inv) ↔ List.Forall₂ Accepts sig.arguments (runs sig.arguments positional)) ∧
      Dealt sig.arguments positional (runs sig.arguments positional) (surplus sig.arguments positional)) := by
  rw [bind_scanned scanned,← fill_eq_mapM]
  dsimp only
  refine ⟨?_,fun i run taken => ⟨eq_extract_of_mem_runs taken,runStart_succ_le⟩,?_,?_⟩
  · cases sig.fill sig.arguments positional <;> rfl
  · intro scarce
    obtain ⟨⟨error,failed⟩,missing⟩ := @fill_scarce sig sig.arguments positional scarce
    refine ⟨⟨error,by rw [failed]; rfl⟩,fun accepted => ?_⟩
    obtain ⟨slot,place,fails⟩ := missing accepted
    exact ⟨slot,place,by rw [fails]; rfl⟩
  · intro enough
    refine ⟨?_,dealt_runs enough⟩
    rw [← @fill_ok_iff sig _ _ enough]
    cases sig.fill sig.arguments positional with
    | error error => simp [Except.map]
    | ok arguments => simp [Except.map]

/-- One token for a name, many for parts and for more, and a flag. -/
def tagging : Signature :=
  ⟨"tag","","tag <name> <parts...> <more...>",
    [⟨"name","",[⟨.string,.zero,.zero,false⟩],[]⟩,⟨"parts","",[⟨.string,.zero,.zero,true⟩],[]⟩,
      ⟨"more","",[⟨.string,.zero,.zero,true⟩],[]⟩],[⟨"-v","",[],.bool false,[]⟩]⟩

theorem bind_partition_tagging :
    Dealt tagging.arguments ["a","b","c","d"] [["a"],["b","c"],["d"]] [] ∧
    (∃ inv, tagging.bind ["a","b","-v","c","d"] = .ok inv) ∧
    ∃ slot, tagging.arguments[1]? = some slot ∧
      tagging.bind ["-v","a"] = .error (.missingArgument tagging.name slot.name tagging.usage) := by
  obtain ⟨_,_,_,filled⟩ := @bind_partition tagging ["a","b","-v","c","d"] ["a","b","c","d"] [("-v",.bool true)] rfl
  obtain ⟨_,_,missing,_⟩ := @bind_partition tagging ["-v","a"] ["a"] [("-v",.bool true)] rfl
  obtain ⟨succeeds,dealt⟩ := filled (by decide)
  refine ⟨dealt,succeeds.mpr (.cons rfl (.cons rfl (.cons rfl .nil))),(missing (by decide)).2 ?_⟩
  intro i slot token place present
  cases i with
  | zero =>
    cases place
    cases present
    rfl
  | succ => cases present

end Signature
end TreeConsole
