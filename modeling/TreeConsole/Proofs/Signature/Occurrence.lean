import TreeConsole.Proofs.Signature.Arrangement
import TreeConsole.Proofs.Signature.Declaration
import TreeConsole.Proofs.Signature.Partition

/-! Occurrences of options.
Every input falls into items in just one way, up to an option at its end that lacks its value. An occurrence of an option
gives it a value or stops the binding. Of several occurrences the last decides, and without any the default, so that an
invocation has all that was declared and nothing else.
-/
namespace TreeConsole

/-- The value of an option from its text: a presence flag reads a truth value, any other what its shapes accept. -/
def OptionSlot.read? (slot : OptionSlot) (text : String) : Option Value :=
  if slot.isPresence then (readBool? text).map .bool else Shapes.coerceText slot.shapes slot.choices text

def OptionSlot.expectation (slot : OptionSlot) : String :=
  if slot.isPresence then "bool" else Shapes.expectation slot.shapes slot.choices

namespace Signature
variable {sig : Signature} {slot : OptionSlot} {flag text key : String} {error : BindingError}

theorem optionValue_eq (sig : Signature) (slot : OptionSlot) (text : String) : sig.optionValue slot text =
    match slot.read? text with
    | some v => .ok v
    | none => .error (.invalidValue sig.name slot.flag text slot.expectation) := by
  unfold optionValue OptionSlot.read? OptionSlot.expectation
  split
  · cases readBool? text <;> rfl
  · cases Shapes.coerceText slot.shapes slot.choices text <;> rfl

namespace Item
variable {item first second : Item sig} {more rest : List String}

/-- What an occurrence sets its option to, if its text is accepted. A bare presence flag has no text. -/
def value? : Item sig → Option Value
  | .positional .. => none
  | .presence .. => some (.bool true)
  | .inline _ text slot .. | .separate _ text slot .. => slot.read? text

/-- What is said of an occurrence whose text is refused. -/
def complaint? : Item sig → Option BindingError
  | .positional .. | .presence .. => none
  | .inline flag text slot .. | .separate flag text slot .. =>
    some (.invalidValue sig.name flag text slot.expectation)

/-- An occurrence of an option has a text that the option accepts. Positional tokens are not looked at. -/
def Coerces (item : Item sig) : Prop := item.flag?.isSome → item.value?.isSome

instance : Decidable item.Coerces := inferInstanceAs (Decidable (item.flag?.isSome = true → item.value?.isSome = true))

theorem reading_of_coerces (coerces : item.Coerces) :
    item.reading = .ok (item.flag?.bind fun flag => item.value?.map fun v => (flag,v)) := by
  cases item with
  | positional | presence => rfl
  | inline flag text slot | separate flag text slot =>
    obtain ⟨v,read⟩ := Option.isSome_iff_exists.mp (coerces rfl)
    change slot.read? text = some v at read
    simp only [reading,flag?,value?,optionValue_eq,read]
    rfl

theorem reading_eq_error_iff : item.reading = .error error ↔ ¬ item.Coerces ∧ item.complaint? = some error := by
  cases item with
  | positional | presence => simp [reading,complaint?,pure,Except.pure]
  | inline flag text slot plain declared | separate flag text slot plain declared =>
    simp only [reading,complaint?,Coerces,flag?,value?,optionValue_eq,flag_of_option? declared]
    cases slot.read? text <;> simp [Except.map]

theorem accepted_iff : item.Accepted ↔ item.Coerces := by
  constructor
  · rintro ⟨entry,read⟩
    by_contra refused
    cases item with
    | positional => exact refused fun some => nomatch some
    | presence => exact refused fun _ => rfl
    | inline | separate =>
      rw [reading_eq_error_iff.mpr ⟨refused,rfl⟩] at read
      cases read
  · exact fun coerces => ⟨_,reading_of_coerces coerces⟩

theorem entry?_of_coerces (coerces : item.Coerces) :
    item.entry? = item.flag?.bind fun flag => item.value?.map fun v => (flag,v) := by
  unfold entry?
  rw [reading_of_coerces coerces]

/-! What an input is made of -/

/-- What the first token of an item is taken for. -/
def found : Item sig → Option (OptionSlot × Option String)
  | .positional .. => none
  | .inline _ text slot .. => some (slot,some text)
  | .presence _ slot .. | .separate _ _ slot .. => some (slot,none)

theorem exists_head (item : Item sig) : ∃ head tail, item.tokens = head :: tail ∧ sig.optionAt head = item.found := by
  cases item with
  | positional token plain undeclared => exact ⟨token,[],rfl,by rw [optionAt_whole plain,undeclared]; rfl⟩
  | inline flag text slot plain declared => exact ⟨_,[],rfl,optionAt_written plain declared⟩
  | presence flag slot plain declared => exact ⟨flag,[],rfl,by rw [optionAt_whole plain,declared]; rfl⟩
  | separate flag text slot plain declared => exact ⟨flag,[text],rfl,by rw [optionAt_whole plain,declared]; rfl⟩

/-- The item at the front of an input is known from its tokens. -/
theorem eq_of_tokens (same : first.tokens ++ more = second.tokens ++ rest) : first = second ∧ more = rest := by
  have found : first.found = second.found := by
    obtain ⟨head,_,tokens,known⟩ := exists_head first
    obtain ⟨other,_,spelled,read⟩ := exists_head second
    rw [tokens,spelled] at same
    rw [← known,← read,(List.cons.inj same).1]
  cases first with
  | positional =>
    cases second with
    | positional => cases same; exact ⟨rfl,rfl⟩
    | inline | presence | separate => cases found
  | inline flag text slot plain declared =>
    cases second with
    | inline other written slot alike known =>
      cases found
      have flags : flag = other := (flag_of_option? declared).symm.trans (flag_of_option? known)
      subst flags
      exact ⟨rfl,(List.cons.inj same).2⟩
    | positional | presence | separate => cases found
  | presence flag slot plain declared bare =>
    cases second with
    | presence => cases same; cases found; exact ⟨rfl,rfl⟩
    | separate _ _ _ _ _ valued => cases found; exact absurd (bare.symm.trans valued) (by decide)
    | positional | inline => cases found
  | separate flag text slot plain declared valued =>
    cases second with
    | separate => cases same; cases found; exact ⟨rfl,rfl⟩
    | presence _ _ _ _ bare => cases found; exact absurd (bare.symm.trans valued) (by decide)
    | positional | inline => cases found

end Item

/-- The items of an input, and the option at its end that lacks its value. -/
structure Parts (sig : Signature) (tokens : List String) (items : List (Item sig)) (waiting : Option OptionSlot) :
    Prop where
  whole : tokens = items.flatMap Item.tokens ++ (waiting.map OptionSlot.flag).toList
  bare : ∀ slot, waiting = some slot →
    sig.option? slot.flag = some slot ∧ ¬ sig.WritesValue slot.flag ∧ slot.isPresence = false

variable {tokens : List String} {items others : List (Item sig)} {item : Item sig} {waiting pending : Option OptionSlot}

theorem not_writesValue_of_bare (found : sig.optionAt flag = some (slot,none)) : ¬ sig.WritesValue flag := by
  rintro ⟨start,text,rfl,plain,declared⟩
  obtain ⟨other,known⟩ := Option.isSome_iff_exists.mp declared
  rw [optionAt_written plain known] at found
  cases found

theorem exists_parts (sig : Signature) (tokens : List String) : ∃ items waiting, sig.Parts tokens items waiting := by
  obtain ⟨items,rest,rfl,ends⟩ := itemized sig tokens
  rcases ends with rfl | ⟨flag,slot,rfl,found,valued⟩
  · exact ⟨items,none,by simp,fun _ waits => nomatch waits⟩
  · have whole := not_writesValue_of_bare found
    have declared : sig.option? flag = some slot := by
      rw [optionAt_whole whole] at found
      obtain ⟨other,known,same⟩ := Option.map_eq_some_iff.mp found
      cases same
      exact known
    obtain rfl := flag_of_option? declared
    exact ⟨items,some slot,rfl,fun other waits => by cases waits; exact ⟨declared,whole,valued⟩⟩

/-- An option that lacks its value is no item. -/
theorem Parts.ne_item (parts : sig.Parts tokens [] waiting) (more : List String) : tokens ≠ item.tokens ++ more := by
  obtain ⟨rfl,bare⟩ := parts
  intro same
  cases waiting with
  | none => cases item <;> cases same
  | some slot =>
    obtain ⟨declared,whole,valued⟩ := bare slot rfl
    cases item with
    | positional token _ undeclared =>
      cases same
      cases declared.symm.trans undeclared
    | inline flag text slot plain known =>
      exact whole ⟨flag,text,(List.cons.inj same).1,plain,by rw [known]; rfl⟩
    | presence flag slot _ known bare =>
      cases same
      cases declared.symm.trans known
      exact absurd (bare.symm.trans valued) (by decide)
    | separate => cases (List.cons.inj same).2

theorem Parts.unique (parts : sig.Parts tokens items waiting) (alike : sig.Parts tokens others pending) :
    others = items ∧ pending = waiting := by
  induction items generalizing tokens others with
  | nil =>
    cases others with
    | cons item rest =>
      refine absurd alike.whole ?_
      rw [List.flatMap_cons,List.append_assoc]
      exact parts.ne_item _
    | nil =>
      have same := parts.whole.symm.trans alike.whole
      cases waiting <;> cases pending
      · exact ⟨rfl,rfl⟩
      · cases same
      · cases same
      next one other =>
        have flags : one.flag = other.flag := (List.cons.inj same).1
        have known := (parts.bare one rfl).1
        rw [flags,(alike.bare other rfl).1] at known
        exact ⟨rfl,known⟩
  | cons item rest ih =>
    have whole := parts.whole
    rw [List.flatMap_cons,List.append_assoc] at whole
    cases others with
    | nil => exact absurd whole (alike.ne_item _)
    | cons other later =>
      have same := whole.symm.trans alike.whole
      rw [List.flatMap_cons,List.append_assoc] at same
      obtain ⟨rfl,behind⟩ := Item.eq_of_tokens same
      obtain ⟨rfl,rfl⟩ := ih ⟨rfl,parts.bare⟩ ⟨behind,alike.bare⟩
      exact ⟨rfl,rfl⟩

/-! Scanning -/

private theorem exists_first_cons {α : Type} {Good Has : α → Prop} {a : α} {more : List α} :
    (∃ before b after, a :: more = before ++ b :: after ∧ (∀ c ∈ before, Good c) ∧ ¬ Good b ∧ Has b) ↔
      ¬ Good a ∧ Has a ∨
        Good a ∧ ∃ before b after, more = before ++ b :: after ∧ (∀ c ∈ before, Good c) ∧ ¬ Good b ∧ Has b := by
  constructor
  · rintro ⟨before,b,after,whole,good,bad,has⟩
    cases before with
    | nil => cases whole; exact .inl ⟨bad,has⟩
    | cons first before =>
      cases whole
      rw [List.forall_mem_cons] at good
      exact .inr ⟨good.1,before,b,after,rfl,good.2,bad,has⟩
  · rintro (⟨bad,has⟩ | ⟨good,before,b,after,rfl,others,bad,has⟩)
    · exact ⟨[],a,more,rfl,by simp,bad,has⟩
    · exact ⟨a :: before,b,after,rfl,List.forall_mem_cons.mpr ⟨good,others⟩,bad,has⟩

theorem scan_item_error_iff {rest : List String} : sig.scan (item.tokens ++ rest) = .error error ↔
    ¬ item.Coerces ∧ item.complaint? = some error ∨ item.Coerces ∧ sig.scan rest = .error error := by
  rw [scan_item,bind_eq_error_iff,Item.reading_eq_error_iff,← Item.accepted_iff]
  refine or_congr_right ?_
  constructor
  · rintro ⟨entry,read,failed⟩
    rcases bind_eq_error_iff.mp failed with failed | ⟨_,_,made⟩
    · exact ⟨⟨entry,read⟩,failed⟩
    · cases made
  · rintro ⟨⟨entry,read⟩,failed⟩
    exact ⟨entry,read,by rw [failed]; rfl⟩

/-- The scan stops at the first occurrence that is refused, or at the end where a value is lacking. -/
theorem Parts.scan_error_iff (parts : sig.Parts tokens items waiting) : sig.scan tokens = .error error ↔
    (∃ before item after, items = before ++ item :: after ∧ (∀ earlier ∈ before, earlier.Coerces) ∧ ¬ item.Coerces ∧
      item.complaint? = some error) ∨
    ∃ slot, waiting = some slot ∧ (∀ item ∈ items, item.Coerces) ∧
      error = .missingOptionValue sig.name slot.flag (Shapes.expectation slot.shapes slot.choices) := by
  obtain ⟨rfl,bare⟩ := parts
  induction items with
  | nil =>
    cases waiting with
    | none => simp [scan,pure,Except.pure]
    | some slot =>
      obtain ⟨declared,whole,valued⟩ := bare slot rfl
      have last : sig.optionAt slot.flag = some (slot,none) := by rw [optionAt_whole whole,declared]; rfl
      simp [scan,last,valued,throw,throwThe,MonadExceptOf.throw,eq_comm]
  | cons item rest ih =>
    rw [List.flatMap_cons,List.append_assoc,scan_item_error_iff,ih,exists_first_cons]
    simp only [List.forall_mem_cons]
    by_cases coerces : item.Coerces
    · simp [coerces]
    · simp [coerces]

theorem Parts.coerces_of_scan (parts : sig.Parts tokens items waiting) {made : Scan} (scanned : sig.scan tokens = .ok made) :
    waiting = none ∧ ∀ item ∈ items, item.Coerces := by
  have coerces : ∀ item ∈ items, item.Coerces := by
    obtain ⟨rfl,_⟩ := parts
    induction items generalizing made with
    | nil => simp
    | cons item rest ih =>
      rw [List.flatMap_cons,List.append_assoc,scan_item] at scanned
      obtain ⟨entry,read,scanned⟩ := bind_eq_ok_iff.mp scanned
      obtain ⟨more,behind,_⟩ := bind_eq_ok_iff.mp scanned
      exact List.forall_mem_cons.mpr ⟨Item.accepted_iff.mp ⟨entry,read⟩,ih behind⟩
  cases waiting with
  | none => exact ⟨rfl,coerces⟩
  | some slot =>
    have failed := parts.scan_error_iff.mpr (.inr ⟨slot,rfl,coerces,rfl⟩)
    rw [scanned] at failed
    cases failed

/-- A scan that succeeds finds the positional tokens and an entry for each occurrence, in order. -/
theorem Parts.scan_ok (parts : sig.Parts tokens items none) (coerces : ∀ item ∈ items, item.Coerces) :
    sig.scan tokens = .ok ⟨items.filterMap Item.positional?,items.filterMap Item.entry?⟩ := by
  have whole : tokens = items.flatMap Item.tokens := by simpa using parts.whole
  rw [whole]
  exact scan_accepted fun item member => Item.accepted_iff.mpr (coerces item member)

/-- What a successful binding has found and filled. -/
theorem Parts.bind_ok (parts : sig.Parts tokens items waiting) {inv : Invocation} (bound : sig.bind tokens = .ok inv) :
    waiting = none ∧ (∀ item ∈ items, item.Coerces) ∧
      inv.options = tabulate sig.defaults (items.filterMap Item.entry?) ∧
      ∃ entries, sig.fill sig.arguments (items.filterMap Item.positional?) = .ok entries ∧
        inv.arguments = tabulate .empty entries := by
  obtain ⟨found,scanned,_⟩ := bind_eq_ok_iff.mp bound
  obtain ⟨rfl,coerces⟩ := parts.coerces_of_scan scanned
  obtain ⟨entries,filled,bound⟩ := bind_eq_ok_iff.mp ((bind_scanned (parts.scan_ok coerces)).symm.trans bound)
  cases bound
  exact ⟨rfl,coerces,rfl,entries,filled,rfl⟩

/-! Declared keys -/

theorem keys_of_fill {slots : List ArgumentSlot} {entries : List (String × Value)} {tokens : List String}
    (filled : sig.fill slots tokens = .ok entries) : entries.map Prod.fst = slots.map ArgumentSlot.name := by
  induction slots generalizing tokens entries with
  | nil => cases filled; rfl
  | cons slot later ih =>
    rw [fill_cons] at filled
    obtain ⟨entry,read,filled⟩ := bind_eq_ok_iff.mp filled
    obtain ⟨more,behind,made⟩ := bind_eq_ok_iff.mp filled
    cases made
    obtain ⟨_,v,_,rfl⟩ := readRun_eq_ok_iff.mp read
    rw [List.map_cons,List.map_cons,ih behind]

theorem mem_keys_defaults : key ∈ sig.defaults.keys ↔ key ∈ sig.options.map OptionSlot.flag := by
  rw [defaults,mem_keys_tabulate,List.map_map]
  exact or_iff_left fun none => nomatch none

theorem get?_defaults (distinct : (sig.options.map OptionSlot.flag).Nodup) (member : slot ∈ sig.options) :
    sig.defaults.get? slot.flag = some slot.default := by
  refine get?_tabulate_of_mem ?_ (List.mem_map.mpr ⟨slot,member,rfl⟩) .empty
  rw [List.map_map]
  exact distinct

theorem Item.declared_of_flag (isFlag : item.flag? = some flag) : flag ∈ sig.options.map OptionSlot.flag := by
  have declared : ∃ slot, sig.option? flag = some slot := by
    cases item with
    | positional => cases isFlag
    | inline _ _ slot _ declared | presence _ slot _ declared | separate _ _ slot _ declared =>
      cases isFlag
      exact ⟨slot,declared⟩
  obtain ⟨slot,found⟩ := declared
  exact List.mem_map.mpr ⟨slot,List.mem_of_find?_eq_some found,flag_of_option? found⟩

/-- What an invocation has: every declared argument, and every declared option with its value. -/
structure Complete (d : Declaration) (items : List (Item sig)) (inv : Invocation) : Prop where
  arguments : ∀ key, key ∈ inv.arguments.keys ↔ key ∈ d.arguments.map SlotDraft.name
  options : ∀ key, key ∈ inv.options.keys ↔ key ∈ d.options.map SlotDraft.name
  coerces : ∀ item ∈ items, item.Coerces
  last : ∀ before item after flag, items = before ++ item :: after → item.flag? = some flag →
    (∀ later ∈ after, later.flag? ≠ some flag) → inv.options.get? flag = item.value?
  default : ∀ draft ∈ d.options, (∀ item ∈ items, item.flag? ≠ some draft.name) →
    inv.options.get? draft.name = some draft.default

theorem keys_of_entries (items : List (Item sig)) (inside : key ∈ (items.filterMap Item.entry?).map Prod.fst) :
    key ∈ sig.options.map OptionSlot.flag := by
  obtain ⟨entry,member,rfl⟩ := List.mem_map.mp inside
  obtain ⟨item,_,made⟩ := List.mem_filterMap.mp member
  unfold Item.entry? at made
  split at made
  next read => exact Item.declared_of_flag (Item.flag?_of_reading (made ▸ read))
  next => cases made

/-- The last occurrence of an option makes its last entry. -/
theorem getLast?_entries {before after : List (Item sig)} (coerces : item.Coerces) (isFlag : item.flag? = some flag)
    (last : ∀ later ∈ after, later.flag? ≠ some flag) :
    (((before ++ item :: after).filterMap Item.entry?).filter fun entry => entry.1 == flag).getLast?.map Prod.snd =
      item.value? := by
  obtain ⟨v,value⟩ := Option.isSome_iff_exists.mp (coerces (by rw [isFlag]; rfl))
  have entry : item.entry? = some (flag,v) := by rw [Item.entry?_of_coerces coerces,isFlag,value]; rfl
  have none : after.filter (fun item => item.flag? == some flag) = [] := by
    simpa [List.filter_eq_nil_iff] using last
  rw [Item.entries_of_flag,List.filter_append,List.filter_cons_of_pos (by simp [isFlag]),none,List.filterMap_append,
    List.filterMap_cons_some entry,List.filterMap_nil,List.getLast?_concat,value]
  rfl

theorem Parts.complete {d : Declaration} (built : d.build = .ok sig) (parts : sig.Parts tokens items waiting)
    {inv : Invocation} (bound : sig.bind tokens = .ok inv) : Complete d items inv := by
  obtain ⟨_,coerces,options,entries,filled,arguments⟩ := parts.bind_ok bound
  obtain ⟨_,readsArguments,readsOptions⟩ := Declaration.parts_of_build built
  have names := Declaration.names_eq (Declaration.readArguments_ok_iff.mp readsArguments).2
  have flags := Declaration.flags_eq (Declaration.readOptions_ok_iff.mp readsOptions).2
  refine ⟨?arguments,?options,coerces,?last,?default⟩
  case arguments =>
    intro key
    rw [arguments,mem_keys_tabulate,keys_of_fill filled,names]
    exact or_iff_left fun none => nomatch none
  case options =>
    intro key
    rw [options,mem_keys_tabulate,mem_keys_defaults,flags]
    exact or_iff_right_of_imp (keys_of_entries items)
  case last =>
    intro before item after flag whole isFlag last
    have accepted : item.Coerces := coerces item (by simp [whole])
    obtain ⟨v,value⟩ := Option.isSome_iff_exists.mp (accepted (by rw [isFlag]; rfl))
    rw [options,get?_tabulate,whole,getLast?_entries accepted isFlag last,value,Option.some_or]
  case default =>
    intro draft declared none
    obtain ⟨slot,found,_,shapes,_,made⟩ := Declaration.option?_of_build built declared
    have member := List.mem_of_find?_eq_some found
    have left : items.filter (fun item => item.flag? == some draft.name) = [] := by
      simpa [List.filter_eq_nil_iff] using none
    have default := get?_defaults (Declaration.nodup_options built) member
    rw [flag_of_option? found] at default
    rw [options,get?_tabulate,Item.entries_of_flag,left,List.filterMap_nil,List.getLast?_nil,Option.map_none,
      Option.none_or,default,made]

/-- Every input falls into items in one way. When it is bound, the arguments and options are those declared, and every
option has the value of its last occurrence or its default. When the scan of options fails, so does the binding, with a
complaint about the first occurrence that is refused, or for want of the value of an option at the end, when no occurrence
before it is refused. -/
theorem bind_complete {d : Declaration} (built : d.build = .ok sig) (tokens : List String) :
    ∃ (items : List (Item sig)) (waiting : Option OptionSlot), sig.Parts tokens items waiting ∧
      (∀ others pending, sig.Parts tokens others pending → others = items ∧ pending = waiting) ∧
      (∀ inv, sig.bind tokens = .ok inv → waiting = none ∧ Complete d items inv) ∧
      (∀ error, sig.scan tokens = .error error → sig.bind tokens = .error error) ∧
      ∀ error, sig.scan tokens = .error error ↔
        (∃ before item after, items = before ++ item :: after ∧ (∀ earlier ∈ before, earlier.Coerces) ∧
          ¬ item.Coerces ∧ item.complaint? = some error) ∨
        ∃ slot, waiting = some slot ∧ (∀ item ∈ items, item.Coerces) ∧
          error = .missingOptionValue sig.name slot.flag (Shapes.expectation slot.shapes slot.choices) := by
  obtain ⟨items,waiting,parts⟩ := exists_parts sig tokens
  refine ⟨items,waiting,parts,fun others pending alike => parts.unique alike,?_,fun error => bind_unscanned,fun error =>
    parts.scan_error_iff⟩
  exact fun inv bound => ⟨(parts.bind_ok bound).1,parts.complete built bound⟩

def sampleDeclaration : Declaration :=
  .ofClauses "mark" "" [.usage "",.argument "node" "string" "",.option "-n" (some "string") "" .null,.flag "-v" ""]

/-- `-v=text a -n`, where `-n` lacks its value. -/
theorem sampleParts (text : String) : sample.Parts ["-v" ++ "=" ++ text,"a","-n"]
    [.inline "-v" text sampleFlag (by decide) rfl,.positional "a" (by decide) rfl] (some sampleName) where
  whole := rfl
  bare := by
    rintro slot ⟨⟩
    exact ⟨rfl,by decide,rfl⟩

/-- Of two values the last one counts, and a flag that is not given is false. A word that is no truth value is told before
a value that is lacking. -/
theorem bind_complete_sample : sampleDeclaration.build = .ok sample ∧
    (∃ inv, sample.bind ["-n","-v","-n=b","a"] = .ok inv ∧ inv.options.get? "-n" = some (.string "b") ∧
      inv.options.get? "-v" = some (.bool false)) ∧
    sample.bind ["-v=maybe","a","-n"] = .error (.invalidValue "mark" "-v" "maybe" "bool") ∧
    sample.bind ["-v=no","a","-n"] = .error (.missingOptionValue "mark" "-n" "string") := by
  have built : sampleDeclaration.build = .ok sample := rfl
  refine ⟨built,⟨_,rfl,?_⟩,?_,?_⟩
  · obtain ⟨_,_,_,unique,complete,_⟩ := bind_complete built ["-n","-v","-n=b","a"]
    obtain ⟨rfl,rfl⟩ := unique sampleItems none ⟨rfl,by simp⟩
    obtain ⟨_,filled⟩ := complete _ rfl
    exact ⟨filled.last [_] _ [_] "-n" rfl rfl (by decide),filled.default ⟨"-v",none,"",.bool false,[]⟩
      (List.mem_cons_of_mem _ List.mem_cons_self) (by decide)⟩
  · obtain ⟨_,_,_,unique,_,fails,errors⟩ := bind_complete built ["-v" ++ "=" ++ "maybe","a","-n"]
    obtain ⟨rfl,rfl⟩ := unique _ _ (sampleParts "maybe")
    exact fails _ ((errors _).mpr (.inl ⟨[],_,_,rfl,by simp,by decide,rfl⟩))
  · obtain ⟨_,_,_,unique,_,fails,errors⟩ := bind_complete built ["-v" ++ "=" ++ "no","a","-n"]
    obtain ⟨rfl,rfl⟩ := unique _ _ (sampleParts "no")
    exact fails _ ((errors _).mpr (.inr ⟨_,rfl,by decide,rfl⟩))

end Signature
end TreeConsole
