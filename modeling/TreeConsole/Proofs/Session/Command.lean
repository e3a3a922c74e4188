import TreeConsole.Proofs.Number.Order
import TreeConsole.Proofs.Session.Selection

/-! Commands that take their tokens as they stand.
`cn`, `cm` and `set` have no options, so that no token of theirs is taken for one: the first token of `cn` is the path,
all tokens of `cm` are its chain, and what `set` hands on is what was typed behind it.
-/
namespace TreeConsole
variable {σ : Type} {host : Host σ} {tokens more : List String} {token : String} {inv : Invocation}

namespace Shape

theorem coerceAll_text (choices : List String) :
    coerceAll ⟨.string,.zero,.zero,true⟩ choices tokens = some (.list (tokens.map .string)) := by
  have each (token : String) : coerce ⟨.string,.zero,.zero,true⟩ choices token = some (.string token) := rfl
  have all : tokens.mapM (coerce ⟨.string,.zero,.zero,true⟩ choices) = some (tokens.map .string) := by
    induction tokens with
    | nil => rfl
    | cons token rest ih =>
      rw [List.mapM_cons,each,ih]
      rfl
  rw [coerceAll,all]
  rfl

theorem coerceTokens_single {shape : Shape} {choices : List String} (single : shape.isArray = false) :
    shape.coerceTokens choices [token] = shape.coerce choices token := by
  rw [coerceTokens,single,if_neg Bool.false_ne_true]

theorem coerce_length {low high : Nat} {text : String} {v : Value}
    (ranged : hasRange ⟨.string,.ofNat low,.ofNat high,false⟩ = true) (smallLow : low < Nat.pow 2 53)
    (smallHigh : high < Nat.pow 2 53) : coerce ⟨.string,.ofNat low,.ofNat high,false⟩ [] text = some v ↔
      v = .string text ∧ low ≤ text.length ∧ text.length ≤ high := by
  have lower := @Binary64.ofNat_le_ofNat_iff low text.length (by omega)
  have upper := @Binary64.ofNat_le_ofNat_iff text.length high (by omega)
  simp only [coerce,within,ranged,Bool.not_true,Bool.false_or,Bool.and_eq_true,lower,upper]
  split
  next inside => simp [inside,eq_comm]
  next outside => simp [outside]

end Shape

namespace Builtin

def chainSignature : Signature :=
  ⟨"cm","Call methods on the current target","cm <method(args)[.method(args)...]>",
    [⟨"chain","Method chain, e.g. get_child(0).get_name()",[⟨.string,.zero,.zero,true⟩],[]⟩],[]⟩

theorem build_chain : chainDeclaration.build = .ok chainSignature := rfl

theorem find?_chain : (catalog host).1.find? "cm" = some ⟨chainSignature,chain host⟩ := by
  have member : (chainDeclaration,chain host) ∈ commands host := .tail _ (.tail _ (.tail _ (.tail _ (.head _))))
  have found := find?_of_mem member build_chain
  have named : chainSignature.name = "cm" := rfl
  rw [named] at found
  exact found

theorem bind_chain_nil : ∃ error, chainSignature.bind [] = .error error := ⟨_,rfl⟩

theorem bind_chain_cons (token : String) (more : List String) : ∃ inv, chainSignature.bind (token :: more) = .ok inv := by
  have all : Signature.share ⟨"chain","Method chain, e.g. get_child(0).get_name()",[⟨.string,.zero,.zero,true⟩],[]⟩
      (token :: more).length 0 = (token :: more).length := by
    have array : Shapes.hasArray [⟨.string,.zero,.zero,true⟩] = true := rfl
    rw [Signature.share,array,if_pos rfl,List.length_cons]
    omega
  have taken : Shapes.coerceTokens [⟨.string,.zero,.zero,true⟩] [] (token :: more) =
      some (.list ((token :: more).map .string)) := by
    have array : Shape.coerceTokens ⟨.string,.zero,.zero,true⟩ [] (token :: more) =
        Shape.coerceAll ⟨.string,.zero,.zero,true⟩ [] (token :: more) := if_pos rfl
    rw [Shapes.coerceTokens,List.findSome?_cons,array,Shape.coerceAll_text]
  rw [Signature.bind_plain rfl,chainSignature]
  simp only [Signature.fill,List.length_nil,all,List.take_length,taken]
  exact ⟨_,rfl⟩

end Builtin

namespace Variables

def setSignature : Signature :=
  ⟨"set","Set a session variable","set <variable> <value>",
    [⟨"variable","Variable name",[⟨.string,.zero,.zero,false⟩],[]⟩,
      ⟨"value","New value",[⟨.string,.zero,.zero,false⟩],[]⟩],[]⟩

theorem build_set : declaration.build = .ok setSignature := rfl

def promptShape : Shape := ⟨.string,.ofNat 1,.ofNat 32,false⟩

def promptSignature : Signature :=
  ⟨"prompt","Prompt shown before each line","set prompt <value>",[⟨"value","New prompt text",[promptShape],[]⟩],[]⟩

theorem build_prompt : promptDeclaration.build = .ok promptSignature := by
  have shapes : Shapes.read "string(1:32)" = ([promptShape],[]) := by decide +kernel
  have slot : Declaration.readSlot "prompt" ⟨"value",some "string(1:32)","New prompt text",.null,[]⟩ =
      .ok [promptShape] := by
    simp only [Declaration.readSlot,shapes]
    rfl
  have slots : promptDeclaration.arguments = [⟨"value",some "string(1:32)","New prompt text",.null,[]⟩] := rfl
  have named : Text.trimmed promptDeclaration.name = "prompt" := by decide
  rw [Declaration.build,named,slots]
  simp only [Declaration.readArguments,slot]
  rfl

theorem get?_prompt : (builtin : Variables σ × List DefinitionError).1.get? "prompt" =
    some ⟨promptSignature,setPrompt⟩ := by
  have distinct : ([(promptDeclaration,setPrompt),(printResultsDeclaration,setPrintResults)].map
      fun other : Declaration × Handler σ => Text.trimmed other.1.name).Nodup := by
    simp only [List.map_cons,List.map_nil]
    decide
  have found := get?_of_mem distinct List.mem_cons_self build_prompt
  have named : promptSignature.name = "prompt" := rfl
  rw [named] at found
  exact found

theorem coerce_prompt {text : String} {v : Value} :
    promptShape.coerce [] text = some v ↔ v = .string text ∧ 1 ≤ text.length ∧ text.length ≤ 32 :=
  Shape.coerce_length (by decide +kernel) (by decide) (by decide)

theorem bind_prompt (bound : promptSignature.bind tokens = .ok inv) :
    ∃ text more, tokens = text :: more ∧ inv.argString? "value" = some text ∧ 1 ≤ text.length ∧ text.length ≤ 32 := by
  rw [Signature.bind_plain rfl] at bound
  cases filled : promptSignature.fill promptSignature.arguments tokens with
  | error error =>
    rw [filled] at bound
    cases bound
  | ok arguments =>
    obtain ⟨text,more,v,rfl,taken,rfl⟩ := Signature.fill_single rfl filled
    rw [filled] at bound
    cases bound
    obtain ⟨shape,member,taken⟩ := List.exists_of_findSome?_eq_some taken
    rw [List.mem_singleton.mp member,Shape.coerceTokens_single rfl] at taken
    obtain ⟨rfl,inside⟩ := coerce_prompt.mp taken
    exact ⟨text,more,rfl,rfl,inside⟩

end Variables

namespace Builtin

theorem find?_set : (catalog host).1.find? "set" = some ⟨Variables.setSignature,Variables.builtin.1.handler⟩ := by
  have member : (Variables.declaration,Variables.builtin.1.handler) ∈ commands host :=
    .tail _ (.tail _ (.tail _ (.tail _ (.tail _ (.head _)))))
  have found := find?_of_mem member Variables.build_set
  have named : Variables.setSignature.name = "set" := rfl
  rw [named] at found
  exact found

end Builtin

/-! Lines of these commands -/

namespace Session
variable {session : Session σ}

theorem find?_select (isBuiltin : session.catalog = (Builtin.catalog host).1) :
    session.catalog.find? "cn" = some ⟨Builtin.selectSignature,Builtin.select host⟩ := by
  rw [isBuiltin]
  exact Builtin.find?_select

theorem find?_chain (isBuiltin : session.catalog = (Builtin.catalog host).1) :
    session.catalog.find? "cm" = some ⟨Builtin.chainSignature,Builtin.chain host⟩ := by
  rw [isBuiltin]
  exact Builtin.find?_chain

theorem find?_set (isBuiltin : session.catalog = (Builtin.catalog host).1) :
    session.catalog.find? "set" = some ⟨Variables.setSignature,Variables.builtin.1.handler⟩ := by
  rw [isBuiltin]
  exact Builtin.find?_set

theorem affects_of_builtin (isBuiltin : session.catalog = (Builtin.catalog host).1) {name : String}
    {entry : Entry (Handler σ)} (found : session.catalog.find? name = some entry) : entry.content.Affects (some name) := by
  rw [isBuiltin] at found
  exact Builtin.find?_affects found

theorem framed_of_builtin (isBuiltin : session.catalog = (Builtin.catalog host).1) (s : σ) (line : String) :
    (session.execute s line).Framed session s (Text.tokenize line).head? :=
  framed_of_affects (affects_of_builtin isBuiltin) s line

end Session

namespace Builtin

/-- The end of `cm`, by the run of its chain: a line for each call that was completed, and one for a failure. -/
def chainOutcome (host : Host σ) (preferences : Preferences) (s : σ) (run : ChainRun) : Outcome :=
  let lines := if preferences.printResults then run.completed.map (completedLine host s) else []
  match run.answer with
  | .ok _ => .succeed ("\n".intercalate lines)
  | .error error => .fail ("\n".intercalate (lines ++ [error.message]))

theorem chain_eq {catalog : Catalog Unit} {text : String} {w : World σ} {f : Focus σ} {run : ChainRun}
    (typed : inv.line = text) (ran : w.toFocus.runChain host text = (f,run)) :
    chain host catalog inv w = (w.refocus f,chainOutcome host w.preferences f.host run) := by
  simp only [chain,typed,ran,chainOutcome]
  cases run.answer <;> rfl

end Builtin

namespace Session
variable {session : Session σ} {s : σ} {f : Focus σ} {run : ChainRun} {line : String}

theorem execute_chain (isBuiltin : session.catalog = (Builtin.catalog host).1)
    (tokens : Text.tokenize line = "cm" :: token :: more)
    (ran : (session.world s).toFocus.runChain host (Catalog.remainder line) = (f,run)) :
    session.execute s line = ⟨f.host,{ session with current := f.current },f.notices,
      Builtin.chainOutcome host session.preferences f.host run⟩ := by
  obtain ⟨inv,bound⟩ := Builtin.bind_chain_cons token more
  have typed : ({ inv with line := Catalog.remainder line } : Invocation).line = Catalog.remainder line := rfl
  rw [execute,Catalog.executeLine_eq tokens (find?_chain isBuiltin) bound]
  dsimp only
  rw [Builtin.chain_eq typed ran]
  rfl

theorem execute_unbound {name : String} {rest : List String} {entry : Entry (Handler σ)} {error : BindingError}
    (tokens : Text.tokenize line = name :: rest) (found : session.catalog.find? name = some entry)
    (refused : entry.signature.bind rest = .error error) :
    session.execute s line = ⟨s,session,[],.fail error.message⟩ := by
  simp only [execute,Catalog.executeLine,Catalog.route,Catalog.prepare,tokens,found,refused]
  rfl

end Session
end TreeConsole
