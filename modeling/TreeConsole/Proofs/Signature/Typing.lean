import TreeConsole.Proofs.Shape.Conformance
import TreeConsole.Proofs.Signature.Occurrence

/-! Types of bound values.
The value of an argument conforms to the first of its shapes that accepts the argument's run, and a value that is given to
an option to the first that accepts its text. Where no shape does, the binding stops there.
-/
namespace TreeConsole.Signature
variable {sig : Signature} {slot : ArgumentSlot} {option : OptionSlot} {text : String} {item : Item sig}
  {items : List (Item sig)} {slots : List ArgumentSlot} {tokens run : List String} {waiting : Option OptionSlot} {i : Nat}

/-- The option with shapes that an occurrence gives a value, and the text of the value. -/
def Item.valued? : Item sig → Option (OptionSlot × String)
  | .inline _ text option .. => if option.isPresence then none else some (option,text)
  | .separate _ text option .. => some (option,text)
  | _ => none

/-- Every argument has a value of its run's texts, and every value that is given to an option is one of its text. -/
structure Typed (sig : Signature) (items : List (Item sig)) (inv : Invocation) : Prop where
  arguments : ∀ (i : Nat) slot, sig.arguments[i]? = some slot → ∃ run v,
    (runs sig.arguments (items.filterMap Item.positional?))[i]? = some run ∧ run ≠ [] ∧
      inv.arguments.get? slot.name = some v ∧
      Shapes.Chosen (fun shape => shape.coerceTokens slot.choices run) slot.shapes slot.choices run v
  options : ∀ before item after option text, items = before ++ item :: after → item.valued? = some (option,text) → ∃ v,
    Shapes.Chosen (fun shape => shape.coerceText option.choices text) option.shapes option.choices (commaParts text) v ∧
      ((∀ later ∈ after, later.flag? ≠ some option.flag) → inv.options.get? option.flag = some v)

theorem fill_entry {entries : List (String × Value)} (filled : sig.fill slots tokens = .ok entries)
    (place : slots[i]? = some slot) : ∃ run v, (runs slots tokens)[i]? = some run ∧ run ≠ [] ∧
      (slot.name,v) ∈ entries ∧ Shapes.coerceTokens slot.shapes slot.choices run = some v := by
  induction slots generalizing tokens entries i with
  | nil => cases place
  | cons first later ih =>
    rw [fill_cons] at filled
    obtain ⟨entry,read,filled⟩ := bind_eq_ok_iff.mp filled
    obtain ⟨more,behind,made⟩ := bind_eq_ok_iff.mp filled
    cases made
    rw [runs_cons]
    cases i with
    | zero =>
      cases place
      obtain ⟨some,v,coerced,rfl⟩ := readRun_eq_ok_iff.mp read
      exact ⟨_,v,rfl,some,List.mem_cons_self,coerced⟩
    | succ i =>
      obtain ⟨run,v,taken,some,member,coerced⟩ := ih behind place
      exact ⟨run,v,taken,some,List.mem_cons_of_mem _ member,coerced⟩

/-- No run is taken from no tokens. -/
theorem ne_nil_of_run (taken : (runs slots tokens)[i]? = some run) (some : run ≠ []) : tokens ≠ [] := by
  rintro rfl
  exact some (by simpa using eq_extract_of_mem_runs taken)

/-- The first argument whose run no shape accepts stops the filling. -/
theorem fill_refused (place : slots[i]? = some slot) (taken : (runs slots tokens)[i]? = some run) (some : run ≠ [])
    (earlier : ∀ (j : Nat) other before, j < i → slots[j]? = Option.some other →
      (runs slots tokens)[j]? = Option.some before → Accepts other before)
    (refused : ∀ shape ∈ slot.shapes, shape.coerceTokens slot.choices run = none) :
    sig.fill slots tokens = .error (.invalidValue sig.name slot.name (" ".intercalate run)
      (Shapes.expectation slot.shapes slot.choices)) := by
  induction slots generalizing tokens i with
  | nil => cases place
  | cons first later ih =>
    have left := ne_nil_of_run taken some
    rw [fill_cons]
    rw [runs_cons] at taken earlier
    cases i with
    | zero =>
      cases place
      cases taken
      have none : Shapes.coerceTokens slot.shapes slot.choices (tokens.take (share slot tokens.length later.length)) =
          none := List.findSome?_eq_none_iff.mpr refused
      rw [readRun,if_neg (by simpa using some),none]
      rfl
    | succ i =>
      have begun : tokens.take (share first tokens.length later.length) ≠ [] := by
        have taken := @share_pos first tokens.length later.length
        simp [left,Nat.ne_of_gt taken]
      obtain ⟨v,accepted⟩ := Option.isSome_iff_exists.mp (earlier 0 first _ (by omega) rfl rfl)
      rw [readRun_eq_ok_iff.mpr ⟨begun,v,accepted,rfl⟩]
      have behind := ih place taken fun j other before below => earlier (j + 1) other before (by omega)
      rw [behind]
      rfl

theorem Item.of_valued {item : Item sig} (valued : item.valued? = some (option,text)) :
    item.flag? = some option.flag ∧ item.value? = Shapes.coerceText option.shapes option.choices text ∧
      item.complaint? =
        some (.invalidValue sig.name option.flag text (Shapes.expectation option.shapes option.choices)) := by
  cases item with
  | positional | presence => cases valued
  | inline flag text slot plain declared =>
    obtain ⟨shaped,made⟩ := Option.ite_none_left_eq_some.mp valued
    cases made
    simp [flag?,value?,complaint?,OptionSlot.read?,OptionSlot.expectation,shaped,flag_of_option? declared]
  | separate flag text slot plain declared unbare =>
    cases valued
    simp [flag?,value?,complaint?,OptionSlot.read?,OptionSlot.expectation,unbare,flag_of_option? declared]

theorem Parts.typed {d : Declaration} (built : d.build = .ok sig) (parts : sig.Parts tokens items waiting)
    {inv : Invocation} (bound : sig.bind tokens = .ok inv) : Typed sig items inv := by
  obtain ⟨_,coerces,_,entries,filled,arguments⟩ := parts.bind_ok bound
  have complete := parts.complete built bound
  refine ⟨?arguments,?options⟩
  case arguments =>
    intro i slot place
    obtain ⟨run,v,taken,some,member,coerced⟩ := fill_entry filled place
    have distinct : (entries.map Prod.fst).Nodup := by
      rw [keys_of_fill filled]
      exact Declaration.nodup_arguments built
    refine ⟨run,v,taken,some,?_,Shapes.coerceTokens_chosen coerced⟩
    rw [arguments,get?_tabulate_of_mem distinct member]
  case options =>
    intro before item after option text whole valued
    obtain ⟨isFlag,value,_⟩ := item.of_valued valued
    obtain ⟨v,accepted⟩ := Option.isSome_iff_exists.mp (coerces item (by simp [whole]) (by rw [isFlag]; rfl))
    refine ⟨v,Shapes.coerceText_chosen (value.symm.trans accepted),fun last => ?_⟩
    rw [complete.last before item after option.flag whole isFlag last,accepted]

/-- What binding gives an argument or an option was made by the first of its shapes that accepts the texts, and conforms
to that shape. Where no shape accepts them, and all that comes before is accepted, binding stops with a complaint about
the slot. -/
theorem bind_typed {d : Declaration} (built : d.build = .ok sig) (tokens : List String) :
    ∃ (items : List (Item sig)) (waiting : Option OptionSlot), sig.Parts tokens items waiting ∧
      (∀ inv, sig.bind tokens = .ok inv → Typed sig items inv) ∧
      (∀ before item after option text, items = before ++ item :: after → item.valued? = some (option,text) →
        (∀ earlier ∈ before, earlier.Coerces) →
        (∀ shape ∈ option.shapes, shape.coerceText option.choices text = none) →
        sig.bind tokens =
          .error (.invalidValue sig.name option.flag text (Shapes.expectation option.shapes option.choices))) ∧
      ∀ (i : Nat) slot run, waiting = none → (∀ item ∈ items, item.Coerces) → sig.arguments[i]? = some slot →
        (runs sig.arguments (items.filterMap Item.positional?))[i]? = some run → run ≠ [] →
        (∀ (j : Nat) other earlier, j < i → sig.arguments[j]? = some other →
          (runs sig.arguments (items.filterMap Item.positional?))[j]? = some earlier → Accepts other earlier) →
        (∀ shape ∈ slot.shapes, shape.coerceTokens slot.choices run = none) →
        sig.bind tokens = .error (.invalidValue sig.name slot.name (" ".intercalate run)
          (Shapes.expectation slot.shapes slot.choices)) := by
  obtain ⟨items,waiting,parts⟩ := exists_parts sig tokens
  refine ⟨items,waiting,parts,fun inv bound => parts.typed built bound,?_,?_⟩
  · intro before item after option text whole valued earlier refused
    obtain ⟨isFlag,value,complaint⟩ := item.of_valued valued
    have none : item.value? = none := value.trans (List.findSome?_eq_none_iff.mpr refused)
    have stops : ¬ item.Coerces := by simp [Item.Coerces,isFlag,none]
    exact bind_unscanned (parts.scan_error_iff.mpr (.inl ⟨before,item,after,whole,earlier,stops,complaint⟩))
  · rintro i slot run rfl coerces place taken some earlier refused
    rw [bind_scanned (parts.scan_ok coerces),fill_refused place taken some earlier refused]
    rfl

/-! Shapes that overlap: a number beyond the range is read as a string, and an array of truth values is tried before one of
numbers. -/

def pickDeclaration : Declaration :=
  .ofClauses "pick" "" [.usage "",.argument "what" "int(0:10)|string" "",.argument "more" "bool...|int..." "",
    .option "-to" (some "int...|string") "" .null]

def pickWhat : ArgumentSlot := ⟨"what","",[⟨.int,.zero,.ofNat 10,false⟩,⟨.string,.zero,.zero,false⟩],[]⟩

def pickTo : OptionSlot := ⟨"-to","",[⟨.int,.zero,.zero,true⟩,⟨.string,.zero,.zero,false⟩],.null,[]⟩

def pick : Signature :=
  ⟨"pick","","",[pickWhat,⟨"more","",[⟨.bool,.zero,.zero,true⟩,⟨.int,.zero,.zero,true⟩],[]⟩],[pickTo]⟩

theorem build_pick : pickDeclaration.build = .ok pick := by
  have shapes : Shapes.read "int(0:10)|string" = (pickWhat.shapes,[]) := by decide +kernel
  have slot : Declaration.readSlot "pick" ⟨"what",some "int(0:10)|string","",.null,[]⟩ = .ok pickWhat.shapes := by
    simp only [Declaration.readSlot,shapes]
    rfl
  have slots : pickDeclaration.arguments =
      [⟨"what",some "int(0:10)|string","",.null,[]⟩,⟨"more",some "bool...|int...","",.null,[]⟩] := rfl
  have named : Text.trimmed pickDeclaration.name = "pick" := by decide
  rw [Declaration.build,named,slots]
  simp only [Declaration.readArguments,slot]
  rfl

def pickItems : List (Item pick) :=
  [.positional "70" (by decide) rfl,.inline "-to" " 1,,2 " pickTo (by decide) rfl,.positional "on" (by decide) rfl,
    .positional "no" (by decide) rfl]

def pickRefused : List (Item pick) :=
  [.positional "5" (by decide) rfl,.positional "on" (by decide) rfl,.positional "2" (by decide) rfl]

theorem bind_typed_pick :
    (∃ inv, pick.bind ["70","-to= 1,,2 ","on","no"] = .ok inv ∧ Typed pick pickItems inv) ∧
    pick.bind ["5","on","2"] = .error (.invalidValue "pick" "more" "on 2" "bool...|int...") := by
  constructor
  · obtain ⟨_,_,parts,typed,_⟩ := bind_typed build_pick ["70","-to= 1,,2 ","on","no"]
    have picked : Parts pick ["70","-to= 1,,2 ","on","no"] pickItems none := ⟨rfl,by simp⟩
    obtain ⟨rfl,rfl⟩ := parts.unique picked
    have accepted : (pick.bind ["70","-to= 1,,2 ","on","no"]).isOk = true := by decide +kernel
    cases bound : pick.bind ["70","-to= 1,,2 ","on","no"] with
    | ok inv => exact ⟨inv,rfl,typed inv bound⟩
    | error error =>
      rw [bound] at accepted
      cases accepted
  · obtain ⟨_,_,parts,_,_,refused⟩ := bind_typed build_pick ["5","on","2"]
    have picked : Parts pick ["5","on","2"] pickRefused none := ⟨rfl,by simp⟩
    obtain ⟨rfl,rfl⟩ := parts.unique picked
    refine refused 1 _ ["on","2"] rfl (by decide) rfl rfl (by simp) ?_ (by decide)
    intro j other earlier below place taken
    obtain rfl : j = 0 := by omega
    cases place
    cases taken
    exact (by decide +kernel : (Shapes.coerceTokens pickWhat.shapes pickWhat.choices ["5"]).isSome)

end TreeConsole.Signature
