import TreeConsole.Proofs.Table
import TreeConsole.Proofs.Text.Pieces

/-! Arrangements of an input.
An input is made of items, positional tokens and complete options. The scanner finds the same items again in
whatever order they are written, so that an order among the positional tokens and among the occurrences of each
flag decides what is bound.
-/
namespace TreeConsole.Signature
open Text
variable {sig : Signature} {flag text token : String} {slot : OptionSlot}

/-- A token that is a declared flag with its value behind the first equals sign. -/
def WritesValue (sig : Signature) (token : String) : Prop :=
  ∃ flag text, token = flag ++ "=" ++ text ∧ '=' ∉ flag.toList ∧ (sig.option? flag).isSome

theorem cut_written (plain : '=' ∉ flag.toList) :
    cut '=' (flag ++ "=" ++ text).toList = some (flag.toList,text.toList) := by
  have opened : (flag ++ "=" ++ text).toList = flag.toList ++ '=' :: text.toList := by simp
  rw [opened,cut_append plain]

theorem writesValue_iff : sig.WritesValue token ↔
    ((cut '=' token.toList).any fun parts => (sig.option? (String.ofList parts.1)).isSome) = true := by
  constructor
  · rintro ⟨flag,text,rfl,plain,declared⟩
    rw [cut_written plain]
    simpa using declared
  · intro written
    cases found : cut '=' token.toList with
    | none => simp [found] at written
    | some parts =>
      obtain ⟨whole,plain⟩ := cut_eq_append found
      refine ⟨String.ofList parts.1,String.ofList parts.2,?_,by simpa using plain,by simpa [found] using written⟩
      apply String.toList_inj.mp
      simp [whole]

instance : Decidable (sig.WritesValue token) := decidable_of_iff _ writesValue_iff.symm

/-- What a token list is made of. -/
inductive Item (sig : Signature) where
  | positional (token : String) (plain : ¬ sig.WritesValue token) (undeclared : sig.option? token = none)
  | inline (flag text : String) (slot : OptionSlot) (plain : '=' ∉ flag.toList) (declared : sig.option? flag = some slot)
  | presence (flag : String) (slot : OptionSlot) (plain : ¬ sig.WritesValue flag)
      (declared : sig.option? flag = some slot) (bare : slot.isPresence = true)
  | separate (flag text : String) (slot : OptionSlot) (plain : ¬ sig.WritesValue flag)
      (declared : sig.option? flag = some slot) (valued : slot.isPresence = false)

namespace Item
variable {item : Item sig}

def tokens : Item sig → List String
  | .positional token .. => [token]
  | .inline flag text .. => [flag ++ "=" ++ text]
  | .presence flag .. => [flag]
  | .separate flag text .. => [flag,text]

def positional? : Item sig → Option String
  | .positional token .. => some token
  | _ => none

def flag? : Item sig → Option String
  | .positional .. => none
  | .inline flag .. | .presence flag .. | .separate flag .. => some flag

/-- The entry that an item makes in the table of options: none when it is positional. -/
def reading : Item sig → Except BindingError (Option (String × Value))
  | .positional .. => pure none
  | .inline flag text slot .. | .separate flag text slot .. => (sig.optionValue slot text).map fun v => some (flag,v)
  | .presence flag .. => pure (some (flag,.bool true))

def entry? (item : Item sig) : Option (String × Value) :=
  match item.reading with
  | .ok entry => entry
  | .error _ => none

def Accepted (item : Item sig) : Prop := ∃ entry, item.reading = .ok entry

theorem flag?_of_reading {item : Item sig} {entry : String × Value} (read : item.reading = .ok (some entry)) :
    item.flag? = some entry.1 := by
  cases item with
  | positional => cases read
  | presence => cases read; rfl
  | inline flag text slot | separate flag text slot =>
    simp only [reading] at read
    cases value : sig.optionValue slot text with
    | error error => rw [value] at read; cases read
    | ok v => rw [value] at read; cases read; rfl

/-- The entries of one flag come from its occurrences. -/
theorem entries_of_flag (items : List (Item sig)) (flag : String) :
    ((items.filterMap entry?).filter fun entry => entry.1 == flag) =
      (items.filter fun item => item.flag? == some flag).filterMap entry? := by
  rw [List.filter_filterMap,List.filterMap_filter]
  congr
  funext item
  unfold entry?
  cases read : item.reading with
  | error error => simp
  | ok entry =>
    cases entry with
    | none => simp
    | some entry => simp [flag?_of_reading read,Option.filter]

end Item

/-- Two inputs of the same items, with the positional tokens in the same order and the occurrences of each flag too. -/
structure Rearranged (first second : List (Item sig)) : Prop where
  items : first.Perm second
  positionals : first.filterMap Item.positional? = second.filterMap Item.positional?
  occurrences : ∀ flag, (first.filter fun item => item.flag? == some flag) = second.filter fun item => item.flag? == some flag

theorem flag_of_option? (declared : sig.option? flag = some slot) : slot.flag = flag := by
  simpa using List.find?_some declared

theorem optionAt_written (plain : '=' ∉ flag.toList) (declared : sig.option? flag = some slot) :
    sig.optionAt (flag ++ "=" ++ text) = some (slot,some text) := by
  unfold optionAt
  rw [cut_written plain]
  simp [declared]

theorem optionAt_whole (plain : ¬ sig.WritesValue token) :
    sig.optionAt token = (sig.option? token).map fun slot => (slot,none) := by
  unfold optionAt
  cases found : cut '=' token.toList with
  | none => rfl
  | some parts =>
    have unknown : sig.option? (String.ofList parts.1) = none := by
      simpa [writesValue_iff,found] using plain
    simp [unknown]

/-- Made of items, up to a flag at the end that lacks its value. -/
def Itemized (sig : Signature) (tokens : List String) : Prop :=
  ∃ (items : List (Item sig)) (rest : List String), tokens = items.flatMap Item.tokens ++ rest ∧
    (rest = [] ∨ ∃ flag slot, rest = [flag] ∧ sig.optionAt flag = some (slot,none) ∧ slot.isPresence = false)

theorem Itemized.cons {tokens : List String} (item : Item sig) (behind : sig.Itemized tokens) :
    sig.Itemized (item.tokens ++ tokens) := by
  obtain ⟨items,rest,rfl,last⟩ := behind
  exact ⟨item :: items,rest,by simp,last⟩

theorem itemized (sig : Signature) : (tokens : List String) → sig.Itemized tokens
  | [] => ⟨[],[],rfl,.inl rfl⟩
  | token :: behind => by
    by_cases written : sig.WritesValue token
    · obtain ⟨flag,text,rfl,plain,declared⟩ := written
      obtain ⟨slot,found⟩ := Option.isSome_iff_exists.mp declared
      exact (itemized sig behind).cons (.inline flag text slot plain found)
    · cases found : sig.option? token with
      | none => exact (itemized sig behind).cons (.positional token written found)
      | some slot =>
        cases bare : slot.isPresence with
        | true => exact (itemized sig behind).cons (.presence token slot written found bare)
        | false =>
          cases behind with
          | nil => exact ⟨[],[token],rfl,.inr ⟨token,slot,rfl,by simp [optionAt_whole written,found],bare⟩⟩
          | cons text behind => exact (itemized sig behind).cons (.separate token text slot written found bare)

/-- An item at the front of an input is found whatever stands behind it. -/
theorem scan_item (item : Item sig) (rest : List String) :
    sig.scan (item.tokens ++ rest) = (do
      let entry ← item.reading
      let more ← sig.scan rest
      pure ⟨item.positional?.toList ++ more.positional,entry.toList ++ more.supplied⟩) := by
  cases item with
  | positional token plain undeclared =>
    simp [Item.tokens,scan,optionAt_whole plain,undeclared,Item.positional?,Item.reading]
  | presence flag slot plain declared bare =>
    simp [Item.tokens,scan,optionAt_whole plain,declared,bare,Item.positional?,Item.reading,flag_of_option? declared]
  | inline flag text slot plain declared =>
    simp only [Item.tokens,List.singleton_append,scan,optionAt_written plain declared,Item.reading,flag_of_option? declared]
    cases sig.optionValue slot text <;> rfl
  | separate flag text slot plain declared valued =>
    simp only [Item.tokens,List.cons_append,List.nil_append,scan,optionAt_whole plain,declared,Option.map_some,valued,
      Item.reading,flag_of_option? declared]
    cases sig.optionValue slot text <;> rfl

/-- An input whose items are all accepted is taken apart into its positional tokens and its entries. -/
theorem scan_accepted {items : List (Item sig)} (accepted : ∀ item ∈ items, item.Accepted) :
    sig.scan (items.flatMap Item.tokens) = .ok ⟨items.filterMap Item.positional?,items.filterMap Item.entry?⟩ := by
  induction items with
  | nil => rfl
  | cons item rest ih =>
    obtain ⟨entry,read⟩ := accepted item (by simp)
    have behind := ih fun later member => accepted later (by simp [member])
    have made : item.entry? = entry := by rw [Item.entry?,read]
    have found : sig.scan ((item :: rest).flatMap Item.tokens) = .ok ⟨item.positional?.toList ++ rest.filterMap
        Item.positional?,entry.toList ++ rest.filterMap Item.entry?⟩ := by
      rw [List.flatMap_cons,scan_item,read,behind]
      rfl
    rw [found,List.filterMap_cons,List.filterMap_cons,made]
    cases item.positional? <;> cases entry <;> rfl

theorem scan_refused {items : List (Item sig)} {item : Item sig} (member : item ∈ items) (refused : ¬ item.Accepted) :
    ∃ error, sig.scan (items.flatMap Item.tokens) = .error error := by
  induction items with
  | nil => simp at member
  | cons first rest ih =>
    rw [List.flatMap_cons,scan_item]
    cases read : first.reading with
    | error error => exact ⟨error,rfl⟩
    | ok entry =>
      have later : item ∈ rest := by
        rcases List.mem_cons.mp member with rfl | later
        · exact absurd ⟨entry,read⟩ refused
        · exact later
      obtain ⟨error,failed⟩ := ih later
      exact ⟨error,by rw [failed]; rfl⟩

/-- The last entry of each flag decides, so the order between different flags does not. -/
theorem tabulate_rearranged {first second : List (Item sig)} (arranged : Rearranged first second) (start : Table Value) :
    tabulate start (first.filterMap Item.entry?) = tabulate start (second.filterMap Item.entry?) := by
  apply Table.ext_get?
  intro flag
  rw [get?_tabulate,get?_tabulate,Item.entries_of_flag,Item.entries_of_flag,arranged.occurrences]

theorem bind_scanned {tokens : List String} {found : Scan} (scanned : sig.scan tokens = .ok found) :
    sig.bind tokens = (sig.fill sig.arguments found.positional).map fun arguments => ⟨sig.name,tabulate .empty arguments,
      tabulate sig.defaults found.supplied,tokens," ".intercalate tokens⟩ := by
  rw [bind,scanned]
  rfl

theorem bind_unscanned {tokens : List String} {error : BindingError} (failed : sig.scan tokens = .error error) :
    sig.bind tokens = .error error := by
  rw [bind,failed]
  rfl

/-- Two inputs of the same items bind alike when the positional tokens and the occurrences of each flag keep
their order: both fail, or both give the same arguments and options. -/
theorem bind_rearranged {first second : List (Item sig)} (arranged : Rearranged first second) :
    (∃ one other, sig.bind (first.flatMap Item.tokens) = .ok one ∧ sig.bind (second.flatMap Item.tokens) = .ok other ∧
      one.arguments = other.arguments ∧ one.options = other.options) ∨
    ∃ error failure, sig.bind (first.flatMap Item.tokens) = .error error ∧
      sig.bind (second.flatMap Item.tokens) = .error failure := by
  by_cases accepted : ∀ item ∈ first, item.Accepted
  · have alike : ∀ item ∈ second, item.Accepted := fun item member => accepted item (arranged.items.mem_iff.mpr member)
    rw [bind_scanned (scan_accepted accepted),bind_scanned (scan_accepted alike),← arranged.positionals]
    cases sig.fill sig.arguments (first.filterMap Item.positional?) with
    | error error => exact .inr ⟨error,error,rfl,rfl⟩
    | ok arguments => exact .inl ⟨_,_,rfl,rfl,rfl,tabulate_rearranged arranged sig.defaults⟩
  · obtain ⟨item,member,refused⟩ : ∃ item ∈ first, ¬ item.Accepted := by simpa using accepted
    obtain ⟨error,failed⟩ := scan_refused member refused
    obtain ⟨failure,fails⟩ := scan_refused (arranged.items.mem_iff.mp member) refused
    exact .inr ⟨error,failure,bind_unscanned failed,bind_unscanned fails⟩

/-! One input in two orders: `-n -v -n=b a -v` and `-v -n -v -n=b a`. The first `-v` behind `-n` is its value. -/

def sampleName : OptionSlot := ⟨"-n","",[⟨.string,.zero,.zero,false⟩],.null,[]⟩

def sampleFlag : OptionSlot := ⟨"-v","",[],.bool false,[]⟩

def sample : Signature := ⟨"mark","","",[⟨"node","",[⟨.string,.zero,.zero,false⟩],[]⟩],[sampleName,sampleFlag]⟩

def sampleItems : List (Item sample) :=
  [.separate "-n" "-v" sampleName (by decide) rfl rfl,.inline "-n" "b" sampleName (by decide) rfl,
    .positional "a" (by decide) rfl]

def sampleLast : Item sample := .presence "-v" sampleFlag (by decide) rfl rfl

theorem sample_rearranged : Rearranged (sampleItems ++ [sampleLast]) (sampleLast :: sampleItems) where
  items := List.perm_append_singleton sampleLast sampleItems
  positionals := rfl
  occurrences := by
    intro flag
    by_cases name : "-n" = flag
    · subst name
      rfl
    · by_cases last : "-v" = flag
      · subst last
        rfl
      · simp [sampleItems,sampleLast,Item.flag?,name,last]

theorem bind_rearranged_sample :
    ∃ one other, sample.bind ["-n","-v","-n=b","a","-v"] = .ok one ∧ sample.bind ["-v","-n","-v","-n=b","a"] = .ok other ∧
      one.arguments = other.arguments ∧ one.options = other.options := by
  have accepted : (sample.bind ["-n","-v","-n=b","a","-v"]).isOk = true := by decide
  rcases bind_rearranged sample_rearranged with alike | ⟨error,failure,failed,fails⟩
  · exact alike
  · change sample.bind ["-n","-v","-n=b","a","-v"] = .error error at failed
    rw [failed] at accepted
    cases accepted

end TreeConsole.Signature
