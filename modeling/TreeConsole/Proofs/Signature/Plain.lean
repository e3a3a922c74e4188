import TreeConsole.Proofs.Success
import TreeConsole.Signature.Binding

/-! Signatures without options.
Where no option is declared, no token is taken for one: all of them are positional, in the order of the input.
-/
namespace TreeConsole.Signature
variable {sig : Signature} {tokens : List String} {inv : Invocation}

theorem scan_plain (plain : sig.options = []) (tokens : List String) : sig.scan tokens = .ok ⟨tokens,[]⟩ := by
  have undeclared (flag : String) : sig.option? flag = none := by rw [option?,plain,List.find?_nil]
  induction tokens with
  | nil => rfl
  | cons token rest ih =>
    have positional : sig.optionAt token = none := by simp [optionAt,undeclared]
    rw [scan,positional,ih]
    rfl

theorem bind_plain (plain : sig.options = []) (tokens : List String) : sig.bind tokens =
    (sig.fill sig.arguments tokens).map fun arguments =>
      ⟨sig.name,tabulate .empty arguments,sig.defaults,tokens," ".intercalate tokens⟩ := by
  rw [bind,scan_plain plain]
  rfl

theorem fill_single {slot : ArgumentSlot} {arguments : List (String × Value)}
    (single : Shapes.hasArray slot.shapes = false) (filled : sig.fill [slot] tokens = .ok arguments) :
    ∃ text more v, tokens = text :: more ∧ Shapes.coerceTokens slot.shapes slot.choices [text] = some v ∧
      arguments = [(slot.name,v)] := by
  cases tokens with
  | nil => cases filled
  | cons text more =>
    have one (available later : Nat) : share slot available later = 1 := by simp [share,single]
    have first : (text :: more).take 1 = [text] := rfl
    unfold fill at filled
    rw [List.isEmpty_cons,if_neg Bool.false_ne_true] at filled
    simp only [one,first] at filled
    split at filled
    next => cases filled
    next v taken =>
      cases filled
      exact ⟨text,more,v,rfl,taken,rfl⟩

theorem raw_of_bind (bound : sig.bind tokens = .ok inv) : inv.raw = tokens := by
  obtain ⟨found,_,bound⟩ := bind_eq_ok_iff.mp bound
  obtain ⟨arguments,_,bound⟩ := bind_eq_ok_iff.mp bound
  cases bound
  rfl

end TreeConsole.Signature
