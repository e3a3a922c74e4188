import TreeConsole.Proofs.Session.Effect
import TreeConsole.Proofs.Signature.Plain
import TreeConsole.Proofs.Text.Quoting
import TreeConsole.Proofs.Tree.Path

/-! Selecting by a printed path.
The path that a console prints for a node can be typed back between quotes: the line is cut into two tokens, the
second is bound as it stands, and it leads to the node from any target.
-/
namespace TreeConsole
variable {σ : Type} {host : Host σ} {w : World σ} {id : Handle} {path : String}

namespace Focus

theorem locate_of_reach {f : Focus σ} (found : ∀ start, reach host f.host start path = some id) :
    f.locate host path = some id := by
  unfold locate
  split <;> simp [found]

theorem select_eq {f : Focus σ} (trimmed : Text.trimmed path = path) (nonempty : path ≠ "")
    (found : f.locate host path = some id) :
    f.select host path = ({ f with current := id }.notify (.targetChanged id),.ok id) := by
  have some : path.isEmpty = false := by simpa using nonempty
  simp [select,trimmed,some,found]

end Focus

theorem Catalog.executeLine_eq {catalog : Catalog (Handler σ)} {line name : String} {rest : List String}
    {entry : Entry (Handler σ)} {inv : Invocation} (tokens : Text.tokenize line = name :: rest)
    (found : catalog.find? name = some entry) (bound : entry.signature.bind rest = .ok inv) :
    catalog.executeLine line w = entry.content catalog.listing { inv with line := remainder line } w := by
  simp only [executeLine,route,prepare,tokens,found,bound]

namespace Builtin

def selectSignature : Signature :=
  ⟨"cn","Change the current target","cn <path>",
    [⟨"path","Relative or absolute object path",[⟨.string,.zero,.zero,false⟩],[]⟩],[]⟩

theorem build_select : selectDeclaration.build = .ok selectSignature := rfl

theorem find?_select : (catalog host).1.find? "cn" = some ⟨selectSignature,select host⟩ := by
  have member : (selectDeclaration,select host) ∈ commands host := .tail _ (.tail _ (.tail _ (.head _)))
  have found := find?_of_mem member build_select
  have named : selectSignature.name = "cn" := rfl
  rw [named] at found
  exact found

/-- The first token is the path, whatever stands in it. -/
theorem bind_select (path : String) (more : List String) :
    ∃ inv, selectSignature.bind (path :: more) = .ok inv ∧
      ∀ line, ({ inv with line := line } : Invocation).argString? "path" = some path := by
  rw [Signature.bind_plain rfl]
  exact ⟨_,rfl,fun _ => rfl⟩

theorem select_eq {catalog : Catalog Unit} {inv : Invocation} {f : Focus σ} (bound : inv.argString? "path" = some path)
    (moved : w.toFocus.select host path = (f,.ok id)) :
    select host catalog inv w = (w.refocus f,.succeed ("Target: " ++ host.describe f.host id)) := by
  simp only [select,bound,Option.getD_some,moved]

end Builtin

namespace Tree
variable {t : Tree}

/-- A name that does not end in a space keeps its end, since its path has no other blank. -/
theorem Layout.trimEnd_name (layout : t.Layout) (inside : id < t.size) (spaced : Text.Spaced (t.path id).toList)
    (last : (t.nameOf id).toList.getLast? ≠ some ' ') : Text.trimEnd (t.nameOf id).toList = (t.nameOf id).toList := by
  refine Text.trimEnd_eq_self_iff.mpr fun c isLast => ?_
  cases blank : Text.isBlank c with
  | false => rfl
  | true =>
    have member := layout.mem_path inside (List.mem_of_getLast? isLast)
    exact absurd (spaced.spaces c member blank ▸ isLast) last

theorem WellFormed.select_path (wellFormed : t.WellFormed) (live : t.isLive id)
    (solid : Text.trimEnd (t.nameOf id).toList = (t.nameOf id).toList) (current : Handle) (notices : List Notice) :
    Focus.select Tree.host ⟨t,current,notices⟩ (t.path id) = (⟨t,id,notices ++ [.targetChanged id]⟩,.ok id) := by
  have reached (start : Handle) : Focus.reach Tree.host t start (t.path id) = some id := by
    have found : t.resolve start (t.path id) = some id := wellFormed.resolve_path live solid
    simp [Focus.reach,Tree.host,found,live]
  have nonempty : t.path id ≠ "" := by simp [path]
  exact Focus.select_eq (wellFormed.trimmed_path (lt_size_of_isLive live) solid) nonempty (Focus.locate_of_reach reached)

end Tree

namespace Session
open TreeConsole.Tree

theorem execute_select {session : Session σ} {s : σ} {line : String} {more : List String} {f : Focus σ}
    (found : session.catalog.find? "cn" = some ⟨Builtin.selectSignature,Builtin.select host⟩)
    (tokens : Text.tokenize line = "cn" :: path :: more) (moved : (session.world s).toFocus.select host path = (f,.ok id)) :
    session.execute s line = ⟨f.host,{ session with current := f.current },f.notices,
      .succeed ("Target: " ++ host.describe f.host id)⟩ := by
  obtain ⟨inv,bound,isPath⟩ := Builtin.bind_select path more
  rw [execute,Catalog.executeLine_eq tokens found bound]
  dsimp only
  rw [Builtin.select_eq (isPath _) moved]
  rfl

/-- In every reachable tree the path of a live node, typed between quotes, selects this node from any target. -/
theorem execute_printed_path (operations : List Operation) (current id : Handle) (preferences : Preferences)
    (live : (new.run operations).isLive id) (noQuote : '"' ∉ ((new.run operations).path id).toList)
    (spaced : Text.Spaced ((new.run operations).path id).toList)
    (last : ((new.run operations).nameOf id).toList.getLast? ≠ some ' ') :
    (builtin Tree.host current preferences).execute (new.run operations)
        ("cn \"" ++ (new.run operations).path id ++ "\"") =
      ⟨new.run operations,builtin Tree.host id preferences,[.targetChanged id],
        .succeed ("Target: " ++ (new.run operations).path id)⟩ := by
  have wellFormed := wellFormed_run operations
  generalize new.run operations = t at *
  have kept := wellFormed.trimEnd_name (lt_size_of_isLive live) spaced last
  let quotation : Text.Quotation := ⟨'"',t.path id,rfl,noQuote,spaced⟩
  have spelled : "cn \"" ++ t.path id ++ "\"" = "cn" ++ " " ++ quotation.text := by
    simp [quotation,← String.toList_inj,Text.Quotation.text]
  have solid : ∀ c ∈ "cn".toList, Text.isBlank c = false :=
    List.forall_mem_cons.mpr ⟨rfl,List.forall_mem_singleton.mpr rfl⟩
  have plain : ∀ c ∈ "cn".toList, Text.isQuote c = false :=
    List.forall_mem_cons.mpr ⟨rfl,List.forall_mem_singleton.mpr rfl⟩
  have tokens := Text.tokenize_quoted "cn" (by decide) solid plain quotation
  have named : Tree.host.describe t id = t.path id := if_pos live
  rw [← spelled] at tokens
  have found : (builtin Tree.host current preferences).catalog.find? "cn" =
      some ⟨Builtin.selectSignature,Builtin.select Tree.host⟩ := by
    simp only [builtin]
    exact Builtin.find?_select
  rw [execute_select found tokens (wellFormed.select_path live kept current []),named]
  simp only [builtin,List.nil_append]

/-- Names with spaces, an equals sign, a dash and a single quote, and a node that is freed again. -/
def crowded : List Operation := [.addChild root "a=b c",.addChild 1 "-x it's",.addChild root "gone",.free 3]

theorem execute_printed_path_crowded :
    (builtin Tree.host 3 .initial).execute (new.run crowded) "cn \"/root/a=b c/-x it's\"" =
      ⟨new.run crowded,builtin Tree.host 2 .initial,[.targetChanged 2],.succeed "Target: /root/a=b c/-x it's"⟩ := by
  have printed : (new.run crowded).path 2 = "/root/a=b c/-x it's" := by decide
  have spaced : Text.Spaced ((new.run crowded).path 2).toList :=
    Text.spaced_iff.mpr ⟨by decide +kernel,by decide +kernel⟩
  have executed := execute_printed_path crowded 3 2 .initial (by decide) (by decide) spaced (by decide)
  rw [printed] at executed
  exact executed

end Session
end TreeConsole
