import TreeConsole.Proofs.Success
import TreeConsole.Signature.Declaration
import Mathlib.Data.List.Forall2

/-! What a declaration is built to.
The drafts of a kind are read one by one, and all are read when each of them can be and their names differ. The slots
stand in the order of the drafts and under their names, so a declared flag leads to what was read from its draft.
-/
namespace TreeConsole
namespace Declaration
variable {d : Declaration} {sig : Signature} {command : String} {seen : List String} {draft : SlotDraft}
  {drafts : List SlotDraft}

/-- The names of the drafts differ from one another and from those seen before. -/
def Fresh (seen : List String) (drafts : List SlotDraft) : Prop :=
  (drafts.map SlotDraft.name).Nodup ∧ ∀ draft ∈ drafts, draft.name ∉ seen

theorem fresh_cons : Fresh seen (draft :: drafts) ↔ draft.name ∉ seen ∧ Fresh (draft.name :: seen) drafts := by
  rw [Fresh,Fresh,List.map_cons,List.nodup_cons,List.forall_mem_cons]
  simp only [List.mem_cons,not_or]
  constructor
  · rintro ⟨⟨alone,distinct⟩,unseen,others⟩
    refine ⟨unseen,distinct,fun other member => ⟨fun same => alone ?_,others other member⟩⟩
    exact same ▸ List.mem_map_of_mem member
  · rintro ⟨unseen,distinct,others⟩
    refine ⟨⟨fun again => ?_,distinct⟩,unseen,fun other member => (others other member).2⟩
    obtain ⟨other,member,same⟩ := List.mem_map.mp again
    exact (others other member).1 same

/-- What an argument's draft is read to. -/
def ReadsArgument (command : String) (draft : SlotDraft) (slot : ArgumentSlot) : Prop :=
  ∃ shapes, readSlot command draft = .ok shapes ∧ slot = ⟨draft.name,draft.description,shapes,draft.choices⟩

/-- What an option's draft is read to. -/
def ReadsOption (command : String) (draft : SlotDraft) (slot : OptionSlot) : Prop :=
  looksLikeFlag draft.name ∧ ∃ shapes, readSlot command draft = .ok shapes ∧
    slot = ⟨draft.name,draft.description,shapes,draft.default,draft.choices⟩

theorem readArguments_ok_iff {slots : List ArgumentSlot} : readArguments command seen drafts = .ok slots ↔
    Fresh seen drafts ∧ List.Forall₂ (ReadsArgument command) drafts slots := by
  -- The names seen grow with each draft, so the induction is for all of them.
  induction drafts generalizing seen slots with
  | nil =>
    have fresh : Fresh seen [] := ⟨.nil,by simp⟩
    rw [readArguments,List.forall₂_nil_left_iff,and_iff_right fresh]
    exact ⟨fun made => (Except.ok.inj made).symm,fun empty => congrArg Except.ok empty.symm⟩
  | cons draft rest ih =>
    rw [readArguments,unless_eq_ok_iff,fresh_cons,List.forall₂_cons_left_iff,and_assoc]
    refine and_congr_right fun _ => ?_
    simp only [bind_eq_ok_iff,ih]
    constructor
    · rintro ⟨shapes,read,more,⟨fresh,others⟩,made⟩
      cases made
      exact ⟨fresh,_,more,⟨shapes,read,rfl⟩,others,rfl⟩
    · rintro ⟨fresh,slot,more,⟨shapes,read,rfl⟩,others,rfl⟩
      exact ⟨shapes,read,more,⟨fresh,others⟩,rfl⟩

theorem readOptions_ok_iff {slots : List OptionSlot} : readOptions command seen drafts = .ok slots ↔
    Fresh seen drafts ∧ List.Forall₂ (ReadsOption command) drafts slots := by
  induction drafts generalizing seen slots with
  | nil =>
    have fresh : Fresh seen [] := ⟨.nil,by simp⟩
    rw [readOptions,List.forall₂_nil_left_iff,and_iff_right fresh]
    exact ⟨fun made => (Except.ok.inj made).symm,fun empty => congrArg Except.ok empty.symm⟩
  | cons draft rest ih =>
    rw [readOptions,unless_eq_ok_iff,unless_eq_ok_iff,fresh_cons,List.forall₂_cons_left_iff]
    simp only [bind_eq_ok_iff,ih]
    constructor
    · rintro ⟨looks,unseen,shapes,read,more,⟨fresh,others⟩,made⟩
      cases made
      exact ⟨⟨unseen,fresh⟩,_,more,⟨by simpa using looks,shapes,read,rfl⟩,others,rfl⟩
    · rintro ⟨⟨unseen,fresh⟩,slot,more,⟨looks,shapes,read,rfl⟩,others,rfl⟩
      exact ⟨by simpa using looks,unseen,shapes,read,more,⟨fresh,others⟩,rfl⟩

theorem build_eq_ok_iff : d.build = .ok sig ↔ Text.trimmed d.name ≠ "" ∧ ∃ arguments options,
    readArguments (Text.trimmed d.name) [] d.arguments = .ok arguments ∧
      readOptions (Text.trimmed d.name) [] d.options = .ok options ∧
      sig = ⟨Text.trimmed d.name,d.description,
        d.usage.getD (Signature.usageOf (Text.trimmed d.name) arguments options),arguments,options⟩ := by
  rw [build,unless_eq_ok_iff,String.isEmpty_iff]
  refine and_congr_right fun _ => ?_
  simp only [bind_eq_ok_iff]
  constructor
  · rintro ⟨arguments,first,options,second,made⟩
    cases made
    exact ⟨arguments,options,first,second,rfl⟩
  · rintro ⟨arguments,options,first,second,rfl⟩
    exact ⟨arguments,first,options,second,rfl⟩

theorem parts_of_build (built : d.build = .ok sig) : sig.name = Text.trimmed d.name ∧
    readArguments sig.name [] d.arguments = .ok sig.arguments ∧ readOptions sig.name [] d.options = .ok sig.options := by
  obtain ⟨_,arguments,options,first,second,rfl⟩ := build_eq_ok_iff.mp built
  exact ⟨rfl,first,second⟩

theorem name_of_build (built : d.build = .ok sig) : sig.name = Text.trimmed d.name := (parts_of_build built).1

theorem names_eq {slots : List ArgumentSlot} (read : List.Forall₂ (ReadsArgument command) drafts slots) :
    drafts.map SlotDraft.name = slots.map ArgumentSlot.name := by
  induction read with
  | nil => rfl
  | cons first _ ih =>
    obtain ⟨shapes,_,rfl⟩ := first
    rw [List.map_cons,List.map_cons,ih]

theorem flags_eq {slots : List OptionSlot} (read : List.Forall₂ (ReadsOption command) drafts slots) :
    drafts.map SlotDraft.name = slots.map OptionSlot.flag := by
  induction read with
  | nil => rfl
  | cons first _ ih =>
    obtain ⟨_,shapes,_,rfl⟩ := first
    rw [List.map_cons,List.map_cons,ih]

theorem nodup_arguments (built : d.build = .ok sig) : (sig.arguments.map ArgumentSlot.name).Nodup := by
  obtain ⟨⟨distinct,_⟩,read⟩ := readArguments_ok_iff.mp (parts_of_build built).2.1
  rwa [names_eq read] at distinct

theorem nodup_options (built : d.build = .ok sig) : (sig.options.map OptionSlot.flag).Nodup := by
  obtain ⟨⟨distinct,_⟩,read⟩ := readOptions_ok_iff.mp (parts_of_build built).2.2
  rwa [flags_eq read] at distinct

/-- Among slots with different flags, the flag of a draft leads to the slot that was read from it. -/
theorem find?_flag {slots : List OptionSlot} (read : List.Forall₂ (ReadsOption command) drafts slots)
    (distinct : (drafts.map SlotDraft.name).Nodup) (member : draft ∈ drafts) :
    ∃ slot, slots.find? (fun slot => slot.flag == draft.name) = some slot ∧ ReadsOption command draft slot := by
  induction read with
  | nil => cases member
  | @cons first slot rest slots reads _ ih =>
    rw [List.map_cons,List.nodup_cons] at distinct
    have flag : slot.flag = first.name := by
      obtain ⟨_,shapes,_,rfl⟩ := reads
      rfl
    rcases List.mem_cons.mp member with rfl | later
    · exact ⟨slot,List.find?_cons_of_pos (by simpa using flag),reads⟩
    · obtain ⟨found,same,read⟩ := ih distinct.2 later
      have other : slot.flag ≠ draft.name := fun equal =>
        distinct.1 (flag.symm.trans equal ▸ List.mem_map_of_mem later)
      exact ⟨found,by rwa [List.find?_cons_of_neg (by simpa using other)],read⟩

theorem option?_of_build (built : d.build = .ok sig) (declared : draft ∈ d.options) :
    ∃ slot, sig.option? draft.name = some slot ∧ ReadsOption sig.name draft slot := by
  obtain ⟨⟨distinct,_⟩,read⟩ := readOptions_ok_iff.mp (parts_of_build built).2.2
  exact find?_flag read distinct declared

/-- An option is a presence flag exactly when it was declared without a type. -/
theorem ReadsOption.isPresence {slot : OptionSlot} (reads : ReadsOption command draft slot) :
    slot.isPresence = draft.descriptor.isNone := by
  obtain ⟨_,shapes,read,rfl⟩ := reads
  unfold readSlot at read
  split at read
  next absent =>
    cases read
    rw [absent]
    rfl
  next descriptor typed =>
    simp only at read
    split at read
    · cases read
    next some =>
      split at read
      · cases read
      · cases read
        simpa [typed,OptionSlot.isPresence] using some

end Declaration
end TreeConsole
