import TreeConsole.Proofs.Shape.Signs
import TreeConsole.Proofs.Signature.Declaration
import TreeConsole.Proofs.Signature.Partition
import Mathlib.Algebra.Order.BigOperators.Group.List
import Mathlib.Algebra.Order.Group.Nat

/-! The two forms of an option's value.
A value is written behind an equals sign or as the next token. Both forms bind alike, whatever stands around them, when
the flag has no equals sign itself. A flag that has one can be declared too, but the inline form is cut at the first
sign, within the flag, and then the forms part.
-/
namespace TreeConsole.Signature
open Text
variable {sig : Signature} {slot : OptionSlot} {flag start rest text : String} {one other before after : List String}

/-- What an input is bound to: the arguments and the options, or the error. -/
def bound (sig : Signature) (tokens : List String) : Except BindingError (Table Value × Table Value) :=
  (sig.bind tokens).map fun inv => (inv.arguments,inv.options)

/-- The input does not end where the value of an option should follow. -/
def Settled (sig : Signature) (tokens : List String) : Prop :=
  ∀ command flag expected, sig.scan tokens ≠ .error (.missingOptionValue command flag expected)

theorem bound_unscanned {error : BindingError} (failed : sig.scan one = .error error) : sig.bound one = .error error := by
  rw [bound,bind_unscanned failed]
  rfl

theorem bound_scanned {found : Scan} (scanned : sig.scan one = .ok found) :
    sig.bound one = (sig.fill sig.arguments found.positional).map fun arguments =>
      (tabulate .empty arguments,tabulate sig.defaults found.supplied) := by
  rw [bound,bind_scanned scanned]
  cases sig.fill sig.arguments found.positional <;> rfl

theorem bound_congr (same : sig.scan one = sig.scan other) : sig.bound one = sig.bound other := by
  cases scanned : sig.scan other with
  | error error => rw [bound_unscanned (same.trans scanned),bound_unscanned scanned]
  | ok found => rw [bound_scanned (same.trans scanned),bound_scanned scanned]

theorem settled_nil : sig.Settled [] := fun _ _ _ waiting => nomatch waiting

/-! The forms agree. -/

theorem writesValue_written (plain : '=' ∉ start.toList) :
    sig.WritesValue (start ++ "=" ++ rest) ↔ (sig.option? start).isSome := by
  rw [writesValue_iff,cut_written plain]
  simp

theorem not_writesValue (plain : '=' ∉ flag.toList) : ¬ sig.WritesValue flag := by
  simp [writesValue_iff,cut_eq_none plain]

theorem exists_written (sign : '=' ∈ flag.toList) : ∃ start rest, flag = start ++ "=" ++ rest ∧ '=' ∉ start.toList := by
  obtain ⟨before,after,whole,plain⟩ := List.eq_append_cons_of_mem sign
  refine ⟨String.ofList before,String.ofList after,String.toList_inj.mp ?_,by simpa using plain⟩
  simp [whole]

theorem scan_forms (declared : sig.option? flag = some slot) (valued : slot.isPresence = false)
    (plain : '=' ∉ flag.toList) (text : String) (after : List String) :
    sig.scan ((flag ++ "=" ++ text) :: after) = sig.scan (flag :: text :: after) :=
  calc sig.scan ((flag ++ "=" ++ text) :: after)
      = _ := scan_item (.inline flag text slot plain declared) after
    _ = sig.scan (flag :: text :: after) :=
      (scan_item (.separate flag text slot (not_writesValue plain) declared valued) after).symm

/-- Behind a settled input, inputs that are scanned alike are interchangeable. -/
theorem scan_settled (settled : sig.Settled before) (same : sig.scan one = sig.scan other) :
    sig.scan (before ++ one) = sig.scan (before ++ other) := by
  obtain ⟨items,last,rfl,ends⟩ := itemized sig before
  induction items with
  | nil =>
    rcases ends with rfl | ⟨flag,slot,rfl,found,valued⟩
    · exact same
    · exact absurd (by simp [scan,found,valued]; rfl) (settled sig.name slot.flag (Shapes.expectation slot.shapes slot.choices))
  | cons item items ih =>
    have front (behind : List String) : sig.scan ((item :: items).flatMap Item.tokens ++ last ++ behind) = (do
        let entry ← item.reading
        let more ← sig.scan (items.flatMap Item.tokens ++ last ++ behind)
        pure ⟨item.positional?.toList ++ more.positional,entry.toList ++ more.supplied⟩) := by
      rw [← scan_item]
      simp
    rw [front,front]
    cases read : item.reading with
    | error error => rfl
    | ok entry =>
      have behind : sig.Settled (items.flatMap Item.tokens ++ last) := by
        intro command flag expected waiting
        have whole := front []
        rw [List.append_nil,List.append_nil,read,waiting] at whole
        exact settled command flag expected whole
      rw [ih behind]

/-! The forms part. -/

theorem written_ne (start rest : String) : start ++ "=" ++ rest ≠ start ∧ start ++ "=" ++ rest ≠ rest := by
  have length : (start ++ "=" ++ rest).length = start.length + 1 + rest.length := by simp only [String.length_append]; rfl
  constructor <;> intro same <;> rw [same] at length <;> omega

theorem optionValue_error {error : BindingError} (failed : sig.optionValue slot text = .error error) :
    ∃ expected, error = sig.invalidOption slot text expected := by
  unfold optionValue at failed
  split at failed <;> split at failed <;> cases failed <;> exact ⟨_,rfl⟩

theorem coerceText_of_optionValue {v : Value} (valued : slot.isPresence = false)
    (value : sig.optionValue slot text = .ok v) : Shapes.coerceText slot.shapes slot.choices text = some v := by
  rw [optionValue,if_neg (by simp [valued])] at value
  split at value <;> cases value
  assumption

/-- Without positional tokens, binding succeeds or wants the first argument. -/
theorem bound_bare {supplied : List (String × Value)} (scanned : sig.scan one = .ok ⟨[],supplied⟩) :
    sig.arguments = [] ∧ sig.bound one = .ok (.empty,tabulate sig.defaults supplied) ∨
      ∃ first later, sig.arguments = first :: later ∧
        sig.bound one = .error (.missingArgument sig.name first.name sig.usage) := by
  rw [bound_scanned scanned]
  cases sig.arguments with
  | nil => exact .inl ⟨rfl,rfl⟩
  | cons first later => exact .inr ⟨first,later,rfl,rfl⟩

theorem bound_bare_ne {supplied : List (String × Value)} {error : BindingError}
    (scanned : sig.scan one = .ok ⟨[],supplied⟩) (other : ∀ argument, error ≠ .missingArgument sig.name argument sig.usage) :
    sig.bound one ≠ .error error := by
  intro failed
  rcases bound_bare scanned with ⟨_,made⟩ | ⟨first,_,_,made⟩ <;> rw [made] at failed
  · cases failed
  · exact other first.name (Except.error.inj failed).symm

theorem scan_inline (plain : '=' ∉ start.toList) (declared : sig.option? start = some slot) (text : String)
    (after : List String) : sig.scan ((start ++ "=" ++ text) :: after) = (do
      let v ← sig.optionValue slot text
      let more ← sig.scan after
      pure ⟨more.positional,(start,v) :: more.supplied⟩) := by
  refine (scan_item (.inline start text slot plain declared) after).trans ?_
  simp only [Item.reading]
  cases sig.optionValue slot text <;> rfl

/-- A presence flag refuses a value with an equals sign in it. -/
theorem inline_outcome (plain : '=' ∉ start.toList) (declared : sig.option? start = some slot)
    (sign : '=' ∈ text.toList) :
    (∃ expected, sig.bound [start ++ "=" ++ text] = .error (sig.invalidOption slot text expected)) ∨
      slot.isPresence = false ∧ ∃ supplied, sig.scan [start ++ "=" ++ text] = .ok ⟨[],supplied⟩ := by
  have inline := scan_inline plain declared text []
  cases value : sig.optionValue slot text with
  | error error =>
    obtain ⟨expected,rfl⟩ := optionValue_error value
    rw [value] at inline
    exact .inl ⟨expected,bound_unscanned inline⟩
  | ok v =>
    rw [value] at inline
    refine .inr ⟨?_,_,inline⟩
    by_contra bare
    rw [optionValue,if_pos (by simpa using bare),readBool?_of_mem sign] at value
    cases value

theorem scan_last (plain : '=' ∉ start.toList) (declared : sig.option? start = some slot) : sig.scan [start] =
    if slot.isPresence then .ok ⟨[],[(slot.flag,.bool true)]⟩
    else .error (.missingOptionValue sig.name slot.flag (Shapes.expectation slot.shapes slot.choices)) := by
  have last : sig.optionAt start = some (slot,none) := by rw [optionAt_whole (not_writesValue plain),declared]; rfl
  simp only [scan,last]
  rfl

/-- A flag behind its own inline form: a valued one waits for a value, a presence flag is given again. -/
theorem repeated_outcome (plain : '=' ∉ start.toList) (declared : sig.option? start = some slot) (text : String) :
    (∃ expected, sig.bound [start ++ "=" ++ text,start] = .error (sig.invalidOption slot text expected)) ∨
      (∃ expected, sig.bound [start ++ "=" ++ text,start] = .error (.missingOptionValue sig.name slot.flag expected)) ∨
      slot.isPresence = true ∧ ∃ supplied, sig.scan [start ++ "=" ++ text,start] = .ok ⟨[],supplied⟩ := by
  have separate := scan_inline plain declared text [start]
  rw [scan_last plain declared] at separate
  cases value : sig.optionValue slot text with
  | error error =>
    obtain ⟨expected,rfl⟩ := optionValue_error value
    rw [value] at separate
    exact .inl ⟨expected,bound_unscanned separate⟩
  | ok v =>
    rw [value] at separate
    cases bare : slot.isPresence with
    | true =>
      rw [bare] at separate
      exact .inr (.inr ⟨rfl,_,separate⟩)
    | false =>
      rw [bare] at separate
      exact .inr (.inl ⟨_,bound_unscanned separate⟩)

/-- Where the text before the first sign of a flag is a flag too, the inline form gives that one a longer text. -/
theorem bound_ne_of_declared (plain : '=' ∉ start.toList) (declared : sig.option? start = some slot) (rest : String) :
    sig.bound [start ++ "=" ++ (rest ++ "=" ++ start)] ≠ sig.bound [start ++ "=" ++ rest,start] := by
  intro same
  -- The kind of an error, or else its text, tells the outcomes apart.
  rcases inline_outcome plain declared (by simp : '=' ∈ (rest ++ "=" ++ start).toList) with
    ⟨_,inline⟩ | ⟨valued,_,inline⟩ <;>
  rcases repeated_outcome plain declared rest with ⟨_,separate⟩ | ⟨_,separate⟩ | ⟨bare,_,separate⟩
  · rw [inline,separate] at same
    injection same with same
    injection same with _ _ texts
    exact (written_ne rest start).1 texts
  · rw [inline,separate] at same
    cases same
  · exact bound_bare_ne separate (by simp [invalidOption]) (same.symm.trans inline)
  · exact bound_bare_ne inline (by simp [invalidOption]) (same.trans separate)
  · exact bound_bare_ne inline (by simp) (same.trans separate)
  · exact absurd (valued.symm.trans bare) (by decide)

/-- A single token is bound, refused as it stands, or leaves an argument behind the first without a token. -/
theorem fill_token (slots : List ArgumentSlot) (token : String) :
    (∃ arguments, sig.fill slots [token] = .ok arguments) ∨
      (∃ name expected, sig.fill slots [token] = .error (.invalidValue sig.name name token expected)) ∨
      ∃ slot ∈ slots.tail, sig.fill slots [token] = .error (.missingArgument sig.name slot.name sig.usage) := by
  cases slots with
  | nil => exact .inl ⟨[],rfl⟩
  | cons first later =>
    have one : share first 1 later.length = 1 := share_scarce (by omega)
    rw [fill_cons,List.length_singleton,one,List.take_succ_cons,List.take_zero,List.drop_succ_cons,List.drop_zero,readRun]
    cases Shapes.coerceTokens first.shapes first.choices [token] with
    | none => exact .inr (.inl ⟨first.name,_,rfl⟩)
    | some v =>
      cases later with
      | nil => exact .inl ⟨_,rfl⟩
      | cons second more => exact .inr (.inr ⟨second,List.mem_cons_self,rfl⟩)

/-- Where the inline form is a positional token, the forms agree at most when the text reads as the default. -/
theorem default_of_agreement (distinct : (sig.arguments.map ArgumentSlot.name).Nodup)
    (declared : sig.option? flag = some slot) (valued : slot.isPresence = false) (whole : ¬ sig.WritesValue flag)
    (unwritten : ¬ sig.WritesValue (flag ++ "=" ++ text)) (undeclared : sig.option? (flag ++ "=" ++ text) = none)
    (same : sig.bound [flag ++ "=" ++ text] = sig.bound [flag,text]) :
    ∃ v, Shapes.coerceText slot.shapes slot.choices text = some v ∧ sig.defaults.get? flag = some v := by
  have inline : sig.scan [flag ++ "=" ++ text] = .ok ⟨[flag ++ "=" ++ text],[]⟩ :=
    scan_item (.positional _ unwritten undeclared) []
  have separate : sig.scan [flag,text] = (sig.optionValue slot text).map fun v => ⟨[],[(flag,v)]⟩ := by
    refine (scan_item (.separate flag text slot whole declared valued) []).trans ?_
    simp only [Item.reading]
    cases sig.optionValue slot text <;> rfl
  rw [bound_scanned inline] at same
  have filled := @fill_token sig sig.arguments (flag ++ "=" ++ text)
  cases value : sig.optionValue slot text with
  | error error =>
    obtain ⟨expected,rfl⟩ := optionValue_error value
    rw [value] at separate
    rw [bound_unscanned separate] at same
    rcases filled with ⟨_,made⟩ | ⟨_,_,made⟩ | ⟨_,_,made⟩ <;> rw [made] at same
    · cases same
    · injection same with same
      injection same with _ _ texts
      exact absurd texts (written_ne flag text).2
    · cases same
  | ok v =>
    rw [value] at separate
    refine ⟨v,coerceText_of_optionValue valued value,?_⟩
    rcases bound_bare separate with ⟨empty,bare⟩ | ⟨first,later,some,bare⟩ <;> rw [bare] at same
    · rw [empty] at same
      injection same with same
      have options : sig.defaults = sig.defaults.insert flag v := congrArg Prod.snd same
      rw [options,Table.get?_insert,if_pos rfl]
    · rw [some] at filled same distinct
      rcases filled with ⟨_,made⟩ | ⟨_,_,made⟩ | ⟨other,member,made⟩ <;> rw [made] at same
      · cases same
      · cases same
      · injection same with same
        injection same with _ names
        rw [List.map_cons,List.nodup_cons] at distinct
        exact absurd (names ▸ List.mem_map_of_mem member) distinct.1

/-- A text longer than every flag is none of them. -/
theorem option?_of_long (long : ∀ slot ∈ sig.options, slot.flag.length < text.length) : sig.option? text = none := by
  refine List.find?_eq_none.mpr fun slot member same => ?_
  have short := long slot member
  rw [beq_iff_eq.mp same] at short
  exact Nat.lt_irrefl _ short

theorem not_agree_of_undeclared (distinct : (sig.arguments.map ArgumentSlot.name).Nodup)
    (declared : sig.option? (start ++ "=" ++ rest) = some slot) (valued : slot.isPresence = false)
    (plain : '=' ∉ start.toList) (undeclared : sig.option? start = none) :
    ∃ text, sig.bound [start ++ "=" ++ rest ++ "=" ++ text] ≠ sig.bound [start ++ "=" ++ rest,text] := by
  by_contra agree
  rw [not_exists_not] at agree
  obtain ⟨n,bounded⟩ : ∃ n, ∀ slot ∈ sig.options, slot.flag.length ≤ n := by
    refine ⟨(sig.options.map fun slot => slot.flag.length).sum,fun slot member => ?_⟩
    exact List.le_sum_of_mem (List.mem_map_of_mem member)
  have unwritten (text : String) : ¬ sig.WritesValue (start ++ "=" ++ text) := by
    rw [writesValue_written plain,undeclared]
    simp
  -- Texts longer than every flag leave nothing but a positional token.
  have default (m : Nat) (long : n ≤ m) : ∃ v, Shapes.coerceText slot.shapes slot.choices (signs m) = some v ∧
      sig.defaults.get? (start ++ "=" ++ rest) = some v := by
    have shifted : start ++ "=" ++ rest ++ "=" ++ signs m = start ++ "=" ++ (rest ++ "=" ++ signs m) := by
      simp only [String.append_assoc]
    refine default_of_agreement distinct declared valued (unwritten rest) (shifted ▸ unwritten _) ?_ (agree (signs m))
    refine option?_of_long fun slot member => ?_
    have short := bounded slot member
    simp only [String.length_append,length_signs]
    omega
  obtain ⟨v,first,found⟩ := default n (Nat.le_refl n)
  obtain ⟨w,second,again⟩ := default (n + 1) (Nat.le_succ n)
  rw [Option.some.inj (again.symm.trans found)] at second
  exact Nat.succ_ne_self n (Shapes.coerceText_signs_injective second first)

/-- The inline and the separate form of a typed option bind alike behind every settled input and before every other,
whatever the value's text, exactly when the flag has no equals sign. -/
theorem bind_forms_iff {d : Declaration} {draft : SlotDraft} (built : d.build = .ok sig) (declared : draft ∈ d.options)
    (typed : draft.descriptor.isSome) :
    (∀ (text : String) (before after : List String), sig.Settled before →
      sig.bound (before ++ [draft.name ++ "=" ++ text] ++ after) = sig.bound (before ++ [draft.name,text] ++ after)) ↔
    '=' ∉ draft.name.toList := by
  obtain ⟨slot,found,reads⟩ := Declaration.option?_of_build built declared
  have valued : slot.isPresence = false := by
    rw [reads.isPresence]
    cases shown : draft.descriptor <;> simp [shown] at typed ⊢
  constructor
  · intro agree sign
    have alone (text : String) : sig.bound [draft.name ++ "=" ++ text] = sig.bound [draft.name,text] :=
      agree text [] [] settled_nil
    obtain ⟨start,rest,name,plain⟩ := exists_written sign
    rw [name] at found alone
    cases shorter : sig.option? start with
    | some other =>
      refine bound_ne_of_declared plain shorter rest ?_
      rw [← alone start]
      simp only [String.append_assoc]
    | none =>
      obtain ⟨text,parts⟩ := not_agree_of_undeclared (Declaration.nodup_arguments built) found valued plain shorter
      exact parts (alone text)
  · intro plain text before after settled
    rw [List.append_assoc,List.append_assoc]
    exact bound_congr (scan_settled settled (scan_forms found valued plain text after))

/-! Two options that take a text. The flag of the second one has an equals sign. -/

def labelDeclaration : Declaration :=
  .ofClauses "label" "" [.option "-n" (some "string") "" .null,.option "-a=b" (some "string") "" .null]

def label : Signature :=
  ⟨"label","","label [-n <string>] [-a=b <string>]",[],[⟨"-n","",[⟨.string,.zero,.zero,false⟩],.null,[]⟩,
    ⟨"-a=b","",[⟨.string,.zero,.zero,false⟩],.null,[]⟩]⟩

theorem build_label : labelDeclaration.build = .ok label := rfl

theorem bind_forms_iff_label :
    (∀ (text : String) (before after : List String), label.Settled before →
      label.bound (before ++ ["-n" ++ "=" ++ text] ++ after) = label.bound (before ++ ["-n",text] ++ after)) ∧
    ¬ ∀ (text : String) (before after : List String), label.Settled before →
      label.bound (before ++ ["-a=b" ++ "=" ++ text] ++ after) = label.bound (before ++ ["-a=b",text] ++ after) :=
  ⟨(bind_forms_iff build_label List.mem_cons_self rfl).mpr (by decide),fun agree =>
    absurd (by decide) ((bind_forms_iff build_label (List.mem_cons_of_mem _ List.mem_cons_self) rfl).mp agree)⟩

/-- The inline form of the second flag is left over as a positional token, and its option keeps the default. -/
theorem bind_inline_signed : labelDeclaration.build = .ok label ∧ label.Settled [] ∧
    (label.bound ["-a=b=v"]).map (fun made => made.2.get? "-a=b") = .ok (some .null) ∧
    (label.bound ["-a=b","v"]).map (fun made => made.2.get? "-a=b") = .ok (some (.string "v")) :=
  ⟨rfl,settled_nil,rfl,rfl⟩

end TreeConsole.Signature
