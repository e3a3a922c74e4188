import TreeConsole.Proofs.Last
import TreeConsole.Proofs.Shape.Descriptor
import TreeConsole.Proofs.Signature.Declaration
import Mathlib.Data.List.Infix

/-! What clauses declare.
The slots of a declaration and their choices are read off its clauses: each slot stands where its clause stands among
the clauses of its kind, and has the choices that are given last before the next slot of either kind. A declaration is
built exactly when its slots can be read and told apart, and then to these slots.
-/
namespace TreeConsole
open Text

/-! Clauses -/

namespace Clause

/-- The slot that a clause declares, without choices as yet. -/
def slot? : Clause → Option (SlotKind × SlotDraft)
  | .argument name descriptor description => some (.argument,⟨name,some descriptor,description,.null,[]⟩)
  | .option flag descriptor description default => some (.option,⟨flag,descriptor,description,default,[]⟩)
  | .usage _ | .choices _ => none

def choices? : Clause → Option (List String)
  | .choices values => some values
  | _ => none

def usage? : Clause → Option String
  | .usage text => some text
  | _ => none

end Clause

namespace Declaration
variable {kind declares : SlotKind} {draft : SlotDraft} {clause : Clause} {later clauses : List Clause}
  {d : Declaration} {first second : Option (List String)} {drafts : List SlotDraft} {name description : String}

/-- The choices that are given last before another slot is declared. -/
def choicesFor? (later : List Clause) : Option (List String) :=
  ((later.takeWhile fun clause => clause.slot?.isNone).filterMap Clause.choices?).getLast?

/-- The slot of a kind that the first of some clauses declares, with the choices given for it. -/
def firstDeclared? (kind : SlotKind) : List Clause → Option SlotDraft
  | [] => none
  | clause :: later => clause.slot?.bind fun (declares,draft) =>
    if declares = kind then some { draft with choices := (choicesFor? later).getD [] } else none

/-- The slots of a kind in the order of their clauses. -/
def declared (kind : SlotKind) (clauses : List Clause) : List SlotDraft :=
  clauses.tails.filterMap (firstDeclared? kind)

theorem declared_cons (kind : SlotKind) (clause : Clause) (later : List Clause) :
    declared kind (clause :: later) = (firstDeclared? kind (clause :: later)).toList ++ declared kind later := by
  rw [declared,List.tails_cons,List.filterMap_cons]
  cases firstDeclared? kind (clause :: later) <;> rfl

theorem declared_of_slot (found : clause.slot? = some (declares,draft)) : declared kind (clause :: later) =
    (if declares = kind then [{ draft with choices := (choicesFor? later).getD [] }] else []) ++ declared kind later := by
  rw [declared_cons,firstDeclared?,found,Option.bind_some]
  by_cases same : declares = kind
  · simp only [if_pos same]
    rfl
  · simp only [if_neg same]
    rfl

theorem declared_of_none (found : clause.slot? = none) : declared kind (clause :: later) = declared kind later := by
  rw [declared_cons,firstDeclared?,found]
  rfl

theorem choicesFor?_of_slot (found : clause.slot? = some (declares,draft)) : choicesFor? (clause :: later) = none := by
  simp [choicesFor?,found]

/-- Later choices win. -/
theorem choicesFor?_of_none (found : clause.slot? = none) :
    choicesFor? (clause :: later) = (choicesFor? later).or clause.choices? := by
  rw [choicesFor?,List.takeWhile_cons_of_pos (by simp [found]),getLast?_filterMap_cons]
  rfl

theorem choices_of_slot (found : clause.slot? = some (declares,draft)) : draft.choices = [] := by
  cases clause <;> cases found <;> rfl

/-! Adding clauses -/

def slots (kind : SlotKind) (d : Declaration) : List SlotDraft :=
  match kind with
  | .argument => d.arguments
  | .option => d.options

/-- The last slot gets the choices, if there are any. -/
def settle (values? : Option (List String)) (drafts : List SlotDraft) : List SlotDraft :=
  values?.elim drafts fun values => choose values drafts

theorem choose_concat (values : List String) (drafts : List SlotDraft) (draft : SlotDraft) :
    choose values (drafts ++ [draft]) = drafts ++ [{ draft with choices := values }] := by
  simp [choose]

theorem settle_concat (values? : Option (List String)) (drafts : List SlotDraft) (draft : SlotDraft) :
    settle values? (drafts ++ [draft]) = drafts ++ [{ draft with choices := values?.getD draft.choices }] := by
  cases values? with
  | none => rfl
  | some values => exact choose_concat values drafts draft

theorem settle_nil (values? : Option (List String)) : settle values? [] = [] := by cases values? <;> rfl

theorem settle_settle : settle second (settle first drafts) = settle (second.or first) drafts := by
  rcases List.eq_nil_or_concat drafts with rfl | ⟨front,last,rfl⟩
  · rw [settle_nil,settle_nil,settle_nil]
  · rw [List.concat_eq_append,settle_concat,settle_concat,settle_concat]
    cases second <;> rfl

theorem add_of_slot (found : clause.slot? = some (declares,draft)) : (d.add clause).last = declares ∧
    ∀ kind, (d.add clause).slots kind = d.slots kind ++ if declares = kind then [draft] else [] := by
  cases clause with
  | usage | choices => cases found
  | argument | option =>
    cases found
    refine ⟨rfl,fun kind => ?_⟩
    cases kind <;> simp [add,slots]

theorem add_of_none (found : clause.slot? = none) : (d.add clause).last = d.last ∧
    ∀ kind, (d.add clause).slots kind = settle (if d.last = kind then clause.choices? else none) (d.slots kind) := by
  cases clause with
  | argument | option => cases found
  | usage =>
    refine ⟨rfl,fun kind => ?_⟩
    simp [add,slots,settle,Clause.choices?]
  | choices values =>
    obtain ⟨name,description,usage,arguments,options,last⟩ := d
    cases last <;> exact ⟨rfl,fun kind => by cases kind <;> rfl⟩

/-- What further clauses do to the slots of a kind. The first of them may still give choices to the slot declared last. -/
theorem slots_foldl (kind : SlotKind) (clauses : List Clause) (d : Declaration) : (clauses.foldl add d).slots kind =
    settle (if d.last = kind then choicesFor? clauses else none) (d.slots kind) ++ declared kind clauses := by
  induction clauses generalizing d with
  | nil =>
    have nothing : declared kind [] = [] := rfl
    have noChoices : choicesFor? [] = none := rfl
    simp [nothing,noChoices,settle]
  | cons clause later ih =>
    rw [List.foldl_cons,ih]
    cases found : clause.slot? with
    | none =>
      obtain ⟨last,slots⟩ := add_of_none (d := d) found
      rw [last,slots,declared_of_none found,choicesFor?_of_none found,settle_settle]
      split <;> rfl
    | some slot =>
      obtain ⟨declares,draft⟩ := slot
      obtain ⟨last,slots⟩ := add_of_slot (d := d) found
      rw [last,slots,declared_of_slot found,choicesFor?_of_slot found,ite_self]
      by_cases same : declares = kind
      · have open' : draft.choices = [] := choices_of_slot found
        rw [if_pos same,if_pos same,if_pos same,settle_concat,open',List.append_assoc]
        rfl
      · rw [if_neg same,if_neg same,if_neg same,List.append_nil]
        rfl

theorem slots_ofClauses (kind : SlotKind) (name description : String) (clauses : List Clause) :
    (ofClauses name description clauses).slots kind = declared kind clauses := by
  have nothing : (start name description).slots kind = [] := by cases kind <;> rfl
  rw [ofClauses,slots_foldl,nothing,settle_nil,List.nil_append]

theorem texts_add (d : Declaration) (clause : Clause) : (d.add clause).name = d.name ∧
    (d.add clause).description = d.description ∧ (d.add clause).usage = clause.usage?.or d.usage := by
  cases clause with
  | usage | argument | option => exact ⟨rfl,rfl,rfl⟩
  | choices values =>
    obtain ⟨name,description,usage,arguments,options,last⟩ := d
    cases last <;> exact ⟨rfl,rfl,rfl⟩

/-- Name and description stay, and the last usage line wins. -/
theorem texts_foldl (clauses : List Clause) (d : Declaration) : (clauses.foldl add d).name = d.name ∧
    (clauses.foldl add d).description = d.description ∧
    (clauses.foldl add d).usage = ((clauses.filterMap Clause.usage?).getLast?).or d.usage := by
  induction clauses generalizing d with
  | nil => exact ⟨rfl,rfl,rfl⟩
  | cons clause later ih =>
    obtain ⟨name,description,usage⟩ := ih (d.add clause)
    obtain ⟨nameKept,descriptionKept,usageAdded⟩ := texts_add d clause
    rw [List.foldl_cons,name,description,usage,usageAdded,getLast?_filterMap_cons,Option.or_assoc]
    exact ⟨nameKept,descriptionKept,rfl⟩

/-! Reading the slots -/

end Declaration

/-- The shapes of a slot, none for a presence flag. -/
def SlotDraft.shapes (draft : SlotDraft) : Shapes := draft.descriptor.elim [] Shapes.accepted

/-- A slot that declares a type has an alternative that can be read, and something to choose from where one of those is a
choice. -/
structure SlotDraft.Readable (draft : SlotDraft) : Prop where
  typed : ∀ descriptor, draft.descriptor = some descriptor →
    ∃ alternative ∈ Shapes.alternatives descriptor, ∃ shape, Shape.read alternative = .ok shape
  chosen : ∀ shape ∈ draft.shapes, shape.kind = .choice → draft.choices ≠ []

theorem Shapes.accepted_ne_nil_iff {descriptor : String} : accepted descriptor ≠ [] ↔
    ∃ alternative ∈ alternatives descriptor, ∃ shape, Shape.read alternative = .ok shape := by
  rw [accepted,ne_eq,List.filterMap_eq_nil_iff]
  push Not
  refine exists_congr fun alternative => and_congr_right fun _ => ?_
  cases Shape.read alternative <;> simp [Except.toOption]

theorem SlotDraft.readable_iff {draft : SlotDraft} {descriptor : String} (typed : draft.descriptor = some descriptor) :
    draft.Readable ↔ Shapes.accepted descriptor ≠ [] ∧
      (Shapes.hasChoice (Shapes.accepted descriptor) = true → draft.choices ≠ []) := by
  have shapes : draft.shapes = Shapes.accepted descriptor := by rw [SlotDraft.shapes,typed,Option.elim_some]
  have chosen : (Shapes.hasChoice (Shapes.accepted descriptor) = true → draft.choices ≠ []) ↔
      ∀ shape ∈ draft.shapes, shape.kind = .choice → draft.choices ≠ [] := by
    rw [shapes]
    simp [Shapes.hasChoice]
  rw [chosen,Shapes.accepted_ne_nil_iff]
  constructor
  · intro readable
    exact ⟨readable.typed descriptor typed,readable.chosen⟩
  · rintro ⟨some,chosen⟩
    refine ⟨fun other found => ?_,chosen⟩
    cases typed.symm.trans found
    exact some

namespace Declaration

theorem readSlot_eq_ok_iff {command : String} {shapes : Shapes} :
    readSlot command draft = .ok shapes ↔ draft.Readable ∧ shapes = draft.shapes := by
  unfold readSlot
  split
  next absent =>
    have nothing : draft.shapes = [] := by rw [SlotDraft.shapes,absent,Option.elim_none]
    have readable : draft.Readable := ⟨by simp [absent],by simp [nothing]⟩
    rw [nothing,and_iff_right readable]
    exact ⟨fun made => (Except.ok.inj made).symm,fun same => congrArg Except.ok same.symm⟩
  next descriptor typed =>
    have same : draft.shapes = Shapes.accepted descriptor := by rw [SlotDraft.shapes,typed,Option.elim_some]
    have read := Shapes.read_eq_accepted descriptor
    rw [SlotDraft.readable_iff typed,same,← read]
    generalize Shapes.read descriptor = result
    obtain ⟨kept,errors⟩ := result
    dsimp only
    split
    next empty => exact ⟨(fun failed => nomatch failed),fun ok => absurd (List.isEmpty_iff.mp empty) ok.1.1⟩
    next some =>
      split
      next unchosen =>
        obtain ⟨offers,nothing⟩ := (Bool.and_eq_true _ _).mp unchosen
        exact ⟨(fun failed => nomatch failed),fun ok => absurd (List.isEmpty_iff.mp nothing) (ok.1.2 offers)⟩
      next chosen =>
        have readable : kept ≠ [] ∧ (Shapes.hasChoice kept = true → draft.choices ≠ []) := by
          refine ⟨fun empty => some (List.isEmpty_iff.mpr empty),fun offers nothing => chosen ?_⟩
          rw [offers,nothing]
          rfl
        rw [and_iff_right readable]
        exact ⟨fun made => (Except.ok.inj made).symm,fun same => congrArg Except.ok same.symm⟩

/-! Building -/

/-- A flag is a dash with something behind it, and so has two bytes at least. -/
theorem looksLikeFlag_iff {flag : String} :
    looksLikeFlag flag = true ↔ flag.toList.head? = some '-' ∧ 2 ≤ flag.utf8ByteSize := by
  unfold looksLikeFlag
  split
  next first rest spelled =>
    have size : flag = String.singleton '-' ++ String.ofList (first :: rest) := String.toList_inj.mp (by simp [spelled])
    have dash : (String.singleton '-').utf8ByteSize = 1 := String.utf8ByteSize_singleton
    have more : (String.ofList (first :: rest)).utf8ByteSize ≠ 0 := by
      rw [ne_eq,String.utf8ByteSize_eq_zero_iff,String.ofList_eq_empty_iff]
      exact List.cons_ne_nil first rest
    rw [spelled,size,String.utf8ByteSize_append,dash]
    simp only [List.head?_cons,true_and,true_iff]
    omega
  next short =>
    have empty : "".utf8ByteSize = 0 := rfl
    have dash : (String.singleton '-').utf8ByteSize = 1 := String.utf8ByteSize_singleton
    refine ⟨(fun absurd => nomatch absurd),fun ⟨starts,long⟩ => ?_⟩
    obtain ⟨rest,spelled⟩ := List.head?_eq_some_iff.mp starts
    cases rest with
    | cons second more => exact absurd spelled (short second more)
    | nil =>
      have alone : flag = String.singleton '-' := String.toList_inj.mp (by simp [spelled])
      rw [alone,dash] at long
      omega

/-- A list is related to another one by a check and a function exactly when all its elements pass and it is mapped. -/
theorem forall₂_map_iff {α β : Type} {p : α → Prop} {f : α → β} {xs : List α} {ys : List β} :
    List.Forall₂ (fun x y => p x ∧ y = f x) xs ys ↔ (∀ x ∈ xs, p x) ∧ ys = xs.map f := by
  rw [List.forall₂_and_left,eq_comm,← List.forall₂_eq_eq_eq,List.forall₂_map_left_iff]
  simp only [eq_comm]

def argumentSlot (draft : SlotDraft) : ArgumentSlot := ⟨draft.name,draft.description,draft.shapes,draft.choices⟩

def optionSlot (draft : SlotDraft) : OptionSlot :=
  ⟨draft.name,draft.description,draft.shapes,draft.default,draft.choices⟩

theorem readArguments_eq_ok_iff {command : String} {slots : List ArgumentSlot} :
    readArguments command [] drafts = .ok slots ↔
      (drafts.map SlotDraft.name).Nodup ∧ (∀ draft ∈ drafts, draft.Readable) ∧ slots = drafts.map argumentSlot := by
  have reads : ReadsArgument command = fun draft slot => draft.Readable ∧ slot = argumentSlot draft := by
    funext draft slot
    simp only [ReadsArgument,readSlot_eq_ok_iff,argumentSlot]
    grind
  rw [readArguments_ok_iff,reads,forall₂_map_iff]
  simp [Fresh]

theorem readOptions_eq_ok_iff {command : String} {slots : List OptionSlot} :
    readOptions command [] drafts = .ok slots ↔ (drafts.map SlotDraft.name).Nodup ∧
      (∀ draft ∈ drafts, looksLikeFlag draft.name = true ∧ draft.Readable) ∧ slots = drafts.map optionSlot := by
  have reads : ReadsOption command =
      fun draft slot => (looksLikeFlag draft.name = true ∧ draft.Readable) ∧ slot = optionSlot draft := by
    funext draft slot
    simp only [ReadsOption,readSlot_eq_ok_iff,optionSlot]
    grind
  rw [readOptions_ok_iff,reads,forall₂_map_iff]
  simp [Fresh]

/-- Clauses that make a signature. -/
structure WellDeclared (name : String) (clauses : List Clause) : Prop where
  named : Text.trimmed name ≠ ""
  arguments : ((declared .argument clauses).map SlotDraft.name).Nodup
  options : ((declared .option clauses).map SlotDraft.name).Nodup
  flags : ∀ draft ∈ declared .option clauses, draft.name.toList.head? = some '-' ∧ 2 ≤ draft.name.utf8ByteSize
  readable : ∀ kind, ∀ draft ∈ declared kind clauses, draft.Readable

/-- The signature that clauses make. Its usage line is the one given last, or is drawn from the slots. -/
def signatureOf (name description : String) (clauses : List Clause) : Signature :=
  let arguments := (declared .argument clauses).map argumentSlot
  let options := (declared .option clauses).map optionSlot
  ⟨Text.trimmed name,description,
    ((clauses.filterMap Clause.usage?).getLast?).getD (Signature.usageOf (Text.trimmed name) arguments options),
    arguments,options⟩

/-- A declaration is built exactly when its name is not blank, its arguments and its options have different names, its
flags are flags, and its slots can be read. Then the slots stand in the order of their clauses, with the alternatives
that can be read, the declared defaults and the choices given last before the next slot. -/
theorem build_iff_wellDeclared (name description : String) (clauses : List Clause) (sig : Signature) :
    (ofClauses name description clauses).build = .ok sig ↔
      WellDeclared name clauses ∧ sig = signatureOf name description clauses := by
  obtain ⟨nameKept,descriptionKept,usage⟩ := texts_foldl clauses (start name description)
  have arguments : (ofClauses name description clauses).arguments = declared .argument clauses :=
    slots_ofClauses .argument name description clauses
  have options : (ofClauses name description clauses).options = declared .option clauses :=
    slots_ofClauses .option name description clauses
  rw [← ofClauses] at nameKept descriptionKept usage
  have unset : (start name description).usage = none := rfl
  rw [build_eq_ok_iff,arguments,options,nameKept,descriptionKept,usage,unset,Option.or_none]
  simp only [readArguments_eq_ok_iff,readOptions_eq_ok_iff,looksLikeFlag_iff]
  constructor
  · rintro ⟨named,_,_,⟨distinct,readable,rfl⟩,⟨distinctFlags,flags,rfl⟩,rfl⟩
    refine ⟨⟨named,distinct,distinctFlags,fun draft member => (flags draft member).1,fun kind => ?_⟩,rfl⟩
    cases kind with
    | argument => exact readable
    | option => exact fun draft member => (flags draft member).2
  · rintro ⟨declares,rfl⟩
    refine ⟨declares.named,_,_,⟨declares.arguments,declares.readable .argument,rfl⟩,⟨declares.options,?_,rfl⟩,rfl⟩
    exact fun draft member => ⟨declares.flags draft member,declares.readable .option draft member⟩

/-- Choices go to the slot declared last, whatever its kind, and the later ones win. -/
example : (declared .argument [.choices ["lost"],.argument "level" "choice" "",.choices ["one"],.usage "",.choices ["two"],
    .flag "-x" "",.choices ["three"]]).map SlotDraft.choices = [["two"]] := rfl

end Declaration
end TreeConsole
