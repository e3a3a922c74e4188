import TreeConsole.Builtin
import TreeConsole.Proofs.Last
import TreeConsole.Proofs.Signature.Declaration
import TreeConsole.Proofs.Table

/-! Look-ups after installing.
Declared commands and variables are installed in order. What is found under a name is the last one that was built
under this name, and its name is the declared one without the blanks around it.
-/
namespace TreeConsole
variable {σ : Type} {name : String} {entry : Entry (Handler σ)} {declared : List (Declaration × Handler σ)}

/-- The entry that a declaration makes under a name, if it is built under that name. -/
def entryAs (name : String) (first : Declaration × Handler σ) : Option (Entry (Handler σ)) :=
  match first.1.build with
  | .ok signature => if signature.name = name then some ⟨signature,first.2⟩ else none
  | .error _ => none

theorem entryAs_eq_some {first : Declaration × Handler σ} (made : entryAs name first = some entry) :
    first.1.build = .ok entry.signature ∧ Text.trimmed first.1.name = name ∧ entry.content = first.2 := by
  unfold entryAs at made
  split at made
  next signature built =>
    split at made
    next same =>
      cases made
      exact ⟨built,(Declaration.name_of_build built).symm.trans same,rfl⟩
    next => cases made
  next => cases made

theorem entryAs_of_name_ne {first : Declaration × Handler σ} (other : Text.trimmed first.1.name ≠ name) :
    entryAs name first = none := by
  cases made : entryAs name first with
  | none => rfl
  | some entry => exact absurd (entryAs_eq_some made).2.1 other

namespace Variables
variable {known : Variables σ}

def grow (grown : Variables σ × List DefinitionError) (first : Declaration × Handler σ) :
    Variables σ × List DefinitionError :=
  match first.1.build with
  | .ok signature => (grown.1.register signature first.2,grown.2)
  | .error error => (grown.1,grown.2 ++ [error])

theorem installAll_eq_foldl : known.installAll declared = declared.foldl grow (known,[]) := by
  refine congrArg (fun step => declared.foldl step (known,[])) ?_
  funext ⟨known,errors⟩ ⟨d,handler⟩
  cases built : d.build <;> simp [grow,built]

theorem get?_grow (grown : Variables σ × List DefinitionError) (first : Declaration × Handler σ) :
    (grow grown first).1.get? name = (entryAs name first).or (grown.1.get? name) := by
  unfold grow entryAs
  cases built : first.1.build with
  | error => rfl
  | ok signature =>
    simp only [register,Table.get?_insert]
    by_cases same : signature.name = name
    · simp [same]
    · simp [same,Ne.symm same]

theorem get?_installAll :
    (known.installAll declared).1.get? name = (declared.filterMap (entryAs name)).getLast?.or (known.get? name) := by
  rw [installAll_eq_foldl]
  exact look_foldl (fun grown : Variables σ × List DefinitionError => grown.1.get? name) get?_grow (known,[])

theorem get?_installAll_empty :
    (installAll .empty declared).1.get? name = (declared.filterMap (entryAs name)).getLast? := by
  rw [get?_installAll]
  exact Option.or_none

theorem declared_of_get? (found : (installAll .empty declared).1.get? name = some entry) :
    ∃ first ∈ declared, first.2 = entry.content ∧ Text.trimmed first.1.name = name := by
  rw [get?_installAll_empty] at found
  obtain ⟨first,member,made⟩ := List.mem_filterMap.mp (List.mem_of_getLast? found)
  obtain ⟨_,named,content⟩ := entryAs_eq_some made
  exact ⟨first,member,content.symm,named⟩

/-- A declaration whose name no other has is found under it. -/
theorem get?_of_mem {d : Declaration} {handler : Handler σ} {signature : Signature}
    (distinct : (declared.map fun other => Text.trimmed other.1.name).Nodup) (member : (d,handler) ∈ declared)
    (built : d.build = .ok signature) :
    (installAll .empty declared).1.get? signature.name = some ⟨signature,handler⟩ := by
  obtain ⟨before,after,rfl⟩ := List.append_of_mem member
  -- Only what is declared later could replace it, and its name is another one.
  rw [List.map_append,List.map_cons] at distinct
  have alone := (List.nodup_cons.mp (List.nodup_append.mp distinct).2.1).1
  have made : entryAs signature.name (d,handler) = some ⟨signature,handler⟩ := by simp [entryAs,built]
  have later : after.filterMap (entryAs signature.name) = [] := by
    refine List.filterMap_eq_nil_iff.mpr fun other inside => entryAs_of_name_ne fun same => alone ?_
    exact List.mem_map.mpr ⟨other,inside,same.trans (Declaration.name_of_build built)⟩
  rw [get?_installAll_empty,List.filterMap_append,List.filterMap_cons_some made,later]
  simp

end Variables

namespace Catalog
variable {catalog : Catalog (Handler σ)}

def grow (grown : Catalog (Handler σ) × List DefinitionError) (first : Declaration × Handler σ) :
    Catalog (Handler σ) × List DefinitionError :=
  match grown.1.install first.1 first.2 with
  | .ok catalog => (catalog,grown.2)
  | .error error => (grown.1,grown.2 ++ [error])

theorem installAll_eq_foldl : catalog.installAll declared = declared.foldl grow (catalog,[]) := by
  refine congrArg (fun step => declared.foldl step (catalog,[])) ?_
  funext ⟨catalog,errors⟩ ⟨d,handler⟩
  cases installed : catalog.install d handler <;> simp [grow,installed]

/-- Commands are installed as variables are; the aliases stay. -/
theorem installAll_eq : catalog.installAll declared =
    ({ catalog with commands := (Variables.installAll catalog.commands declared).1 },
      (Variables.installAll catalog.commands declared).2) := by
  let among (grown : Variables σ × List DefinitionError) : Catalog (Handler σ) × List DefinitionError :=
    ({ catalog with commands := grown.1 },grown.2)
  have step (grown : Variables σ × List DefinitionError) (first : Declaration × Handler σ) :
      grow (among grown) first = among (Variables.grow grown first) := by
    unfold grow Variables.grow install
    cases first.1.build <;> rfl
  have embedded : declared.foldl grow (among (catalog.commands,[])) =
      among (declared.foldl Variables.grow (catalog.commands,[])) := List.foldl_hom among step
  rw [installAll_eq_foldl,Variables.installAll_eq_foldl]
  exact embedded

end Catalog

namespace Builtin
variable {host : Host σ}

def commands (host : Host σ) : List (Declaration × Handler σ) :=
  [(helpDeclaration,help),(echoDeclaration,echo),(quitDeclaration,quit),(selectDeclaration,select host),
    (chainDeclaration,chain host),(Variables.declaration,Variables.builtin.1.handler)]

theorem catalog_eq : (catalog host).1 =
    ⟨(Variables.installAll .empty (commands host)).1,Table.insert .empty "exit" "quit"⟩ := by
  have installed : (catalog host).1 = (Catalog.installAll .empty (commands host)).1.addAlias "exit" "quit" := by
    unfold catalog commands
    cases Variables.builtin
    split
    next known => rw [known]
  rw [installed,Catalog.installAll_eq]
  simp only [Catalog.addAlias,Catalog.empty]

theorem commands_catalog : (catalog host).1.commands = (Variables.installAll .empty (commands host)).1 := by
  rw [catalog_eq]

theorem get?_aliases : (catalog host).1.aliases.get? name = if name = "exit" then some "quit" else none := by
  rw [catalog_eq]
  exact Table.get?_insert

theorem names_commands :
    ((commands host).map fun first => Text.trimmed first.1.name) = ["help","echo","quit","cn","cm","set"] := by
  simp only [commands,List.map_cons,List.map_nil]
  decide

theorem find?_of_mem {d : Declaration} {handler : Handler σ} {signature : Signature}
    (member : (d,handler) ∈ commands host) (built : d.build = .ok signature) :
    (catalog host).1.find? signature.name = some ⟨signature,handler⟩ := by
  have distinct : ((commands host).map fun first => Text.trimmed first.1.name).Nodup := by
    rw [names_commands]
    decide
  rw [Catalog.find?,commands_catalog,Variables.get?_of_mem distinct member built]
  exact Option.some_or

/-- What is found under a name was declared with it, or is what `exit` stands for. -/
theorem declared_of_find? (found : (catalog host).1.find? name = some entry) : ∃ first ∈ commands host,
    first.2 = entry.content ∧ (Text.trimmed first.1.name = name ∨ Text.trimmed first.1.name = "quit") := by
  rcases Option.or_eq_some_iff.mp found with direct | ⟨_,aliased⟩
  · rw [commands_catalog] at direct
    obtain ⟨first,member,content,named⟩ := Variables.declared_of_get? direct
    exact ⟨first,member,content,.inl named⟩
  · obtain ⟨command,known,found⟩ := Option.bind_eq_some_iff.mp aliased
    rw [get?_aliases] at known
    split at known <;> cases known
    rw [commands_catalog] at found
    obtain ⟨first,member,content,named⟩ := Variables.declared_of_get? found
    exact ⟨first,member,content,.inr named⟩

end Builtin
end TreeConsole
