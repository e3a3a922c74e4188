import TreeConsole.Proofs.Session.Command
import TreeConsole.Proofs.Session.Dispatch

/-! Setting a variable.
`set` has its tokens bound twice, to its own signature and, without the name of the variable, to the variable's. The first
binding asks for two tokens and changes none, so the variable sees what stands behind its name as it was typed.
-/
namespace TreeConsole
variable {σ : Type}

def Entry.named? {α : Type} (name : String) (entry : Entry α) : Option (Entry α) :=
  if entry.signature.name = name then some entry else none

namespace Variables

/-- The variables that were registered one after the other. -/
def ofEntries (registered : List (Entry (Handler σ))) : Variables σ :=
  registered.foldl (fun known entry => known.register entry.signature entry.content) .empty

/-- A catalog that has `set`, with these variables, installed between other registrations. -/
def catalog (before : List (Registration (Handler σ))) (registered : List (Entry (Handler σ)))
    (after : List (Registration (Handler σ))) : Except DefinitionError (Catalog (Handler σ)) := do
  let installed ← (Catalog.ofHistory before).install declaration (ofEntries registered).handler
  pure (after.foldl Catalog.enter installed)

def recorded (registered : List (Entry (Handler σ))) : List (Entry (Handler (σ × List Called))) :=
  registered.mapIdx fun place entry => ⟨entry.signature,entry.content.recorded place⟩

/-- What becomes of the tokens behind the name of a variable: the variable that was registered last under the name runs
once on them, or no handler runs and the world stays. -/
inductive Delegated (registered : List (Entry (Handler σ))) (commands : Catalog Unit) (w : World σ) (key : String)
    (rest : List String) : List Called → World σ × Outcome → Prop
  | ran {place entry inv} (written : rest ≠ []) (last : LastAt (Entry.named? key) registered place entry)
      (bound : entry.signature.bind rest = .ok inv) (raw : inv.raw = rest) :
      Delegated registered commands w key rest [⟨place,inv⟩] (entry.content commands inv w)
  | refused {place entry error} (written : rest ≠ []) (last : LastAt (Entry.named? key) registered place entry)
      (unbound : entry.signature.bind rest = .error error) :
      Delegated registered commands w key rest [] (w,.fail ("set " ++ error.message))
  | unknown {keys} (written : rest ≠ []) (unnamed : ∀ entry ∈ registered, entry.signature.name ≠ key)
      (ordered : keys.Pairwise (· < ·)) (all : ∀ name, name ∈ keys ↔ ∃ entry ∈ registered, entry.signature.name = name) :
      Delegated registered commands w key rest []
        (w,.fail ("Variable not found: " ++ key ++ ". Known variables: " ++ ", ".intercalate keys))
  | missing (nothing : rest = []) : Delegated registered commands w key rest []
      (w,.fail (BindingError.message (.missingArgument "set" "value" "set <variable> <value>")))

/-- An invocation of `set` for a variable and the tokens behind its name. -/
structure Asked (key : String) (rest : List String) (inv : Invocation) : Prop where
  command : inv.command = "set"
  raw : inv.raw = key :: rest
  chosen : inv.argString? "variable" = some key

variable {key value : String} {rest more : List String} {known : Variables σ} {entry : Entry (Handler σ)} {place : Nat}
variable {registered : List (Entry (Handler σ))} {before after : List (Registration (Handler σ))}
variable {commands : Catalog Unit} {inv bound : Invocation} {w : World σ}

/-! Looking variables up -/

theorem get?_register (known : Variables σ) (entry : Entry (Handler σ)) :
    (known.register entry.signature entry.content).get? key = (entry.named? key).or (known.get? key) :=
  Table.get?_insert_or

theorem get?_ofEntries : (ofEntries registered).get? key = some entry ↔
    ∃ place, LastAt (Entry.named? key) registered place entry :=
  (look_foldl_eq_some_iff (fun known : Variables σ => known.get? key) get?_register .empty).trans
    (or_iff_left fun both => Option.some_ne_none _ both.2.symm)

theorem get?_ofEntries_eq_none : (ofEntries registered).get? key = none ↔
    ∀ entry ∈ registered, entry.signature.name ≠ key := by
  have unnamed (entry : Entry (Handler σ)) : entry.named? key = none ↔ entry.signature.name ≠ key := by
    simp [Entry.named?]
  simp only [← unnamed]
  exact (look_foldl_eq_none_iff (fun known : Variables σ => known.get? key) get?_register .empty).trans (and_iff_left rfl)

theorem mem_keys_ofEntries : key ∈ (ofEntries registered).keys ↔ ∃ entry ∈ registered, entry.signature.name = key := by
  have absent := @get?_ofEntries_eq_none σ key registered
  rw [Table.get?_eq_none_iff] at absent
  simpa using not_congr absent

theorem get?_recorded (last : LastAt (Entry.named? key) registered place entry) :
    (ofEntries (recorded registered)).get? key = some ⟨entry.signature,entry.content.recorded place⟩ := by
  let image (place : Nat) (entry : Entry (Handler σ)) : Entry (Handler (σ × List Called)) :=
    ⟨entry.signature,entry.content.recorded place⟩
  refine get?_ofEntries.mpr ⟨place,last.mapIdx image image fun place entry => ?_⟩
  unfold Entry.named?
  split <;> rfl

theorem names_recorded (registered : List (Entry (Handler σ))) :
    (recorded registered).map (·.signature.name) = registered.map (·.signature.name) := by
  apply List.ext_getElem
  · simp [recorded]
  · simp [recorded]

theorem get?_recorded_eq_none :
    (ofEntries (recorded registered)).get? key = none ↔ (ofEntries registered).get? key = none := by
  have names := names_recorded registered
  have unnamed {τ : Type} (registered : List (Entry (Handler τ))) :
      (ofEntries registered).get? key = none ↔ key ∉ registered.map (·.signature.name) := by
    rw [get?_ofEntries_eq_none]
    simp
  rw [unnamed,unnamed,names]

theorem keys_recorded : (ofEntries (recorded registered)).keys = (ofEntries registered).keys :=
  Table.keys_congr fun _ => get?_recorded_eq_none

/-! Handing on -/

theorem handler_ran (asked : Asked key rest inv) (found : known.get? key = some entry)
    (fits : entry.signature.bind rest = .ok bound) : known.handler commands inv w = entry.content commands bound w := by
  simp only [handler,asked.raw,found,fits]

theorem handler_refused {error : BindingError} (asked : Asked key rest inv) (found : known.get? key = some entry)
    (unbound : entry.signature.bind rest = .error error) :
    known.handler commands inv w = (w,.fail ("set " ++ error.message)) := by
  simp only [handler,asked.raw,found,unbound,asked.command]
  rfl

theorem handler_unknown (asked : Asked key rest inv) (missing : known.get? key = none) : known.handler commands inv w =
    (w,.fail ("Variable not found: " ++ key ++ ". Known variables: " ++ ", ".intercalate known.keys)) := by
  simp only [handler,asked.raw,missing,unknown,asked.chosen,Option.getD_some]

theorem handler_delegated (written : rest ≠ []) (asked : Asked key rest inv) : ∃ calls,
    (ofEntries (recorded registered)).handler commands inv (w.recording []) =
      (((ofEntries registered).handler commands inv w).1.recording calls,
        ((ofEntries registered).handler commands inv w).2) ∧
    Delegated registered commands w key rest calls ((ofEntries registered).handler commands inv w) := by
  cases look : (ofEntries registered).get? key with
  | none =>
    rw [handler_unknown asked look,handler_unknown asked (get?_recorded_eq_none.mpr look),keys_recorded]
    exact ⟨[],rfl,.unknown written (get?_ofEntries_eq_none.mp look) (Table.keys_ordered _) fun _ => mem_keys_ofEntries⟩
  | some entry =>
    obtain ⟨place,last⟩ := get?_ofEntries.mp look
    cases bound : entry.signature.bind rest with
    | error error =>
      rw [handler_refused asked look bound,handler_refused asked (get?_recorded last) bound]
      exact ⟨[],rfl,.refused written last bound⟩
    | ok inner =>
      rw [handler_ran asked look bound,handler_ran asked (get?_recorded last) bound]
      exact ⟨[⟨place,inner⟩],rfl,.ran written last bound (Signature.raw_of_bind bound)⟩

theorem bind_set_single (key : String) :
    setSignature.bind [key] = .error (.missingArgument "set" "value" "set <variable> <value>") := by
  rw [Signature.bind_plain rfl]
  rfl

theorem bind_set (key value : String) (more : List String) :
    ∃ inv, setSignature.bind (key :: value :: more) = .ok inv ∧ Asked key (value :: more) inv := by
  have found : (Signature.tabulate .empty [("variable",.string key),("value",.string value)]).get? "variable" =
      some (.string key) := Signature.get?_tabulate_of_mem (by simp) List.mem_cons_self .empty
  rw [Signature.bind_plain rfl]
  exact ⟨_,rfl,rfl,rfl,congrArg (Option.bind · Value.asString?) found⟩

/-! A catalog with `set` -/

theorem catalog_eq : catalog before registered after =
    .ok (Catalog.ofHistory (before ++ .register setSignature (ofEntries registered).handler :: after)) := by
  rw [catalog,Catalog.install,build_set,Catalog.ofHistory,Catalog.ofHistory,List.foldl_append,List.foldl_cons]
  rfl

theorem find?_catalog (before : List (Registration (Handler σ))) (registered : List (Entry (Handler σ)))
    (kept : ∀ registration ∈ after, registration.command? "set" = none) :
    (Catalog.ofHistory (before ++ .register setSignature (ofEntries registered).handler :: after)).find? "set" =
      some ⟨setSignature,(ofEntries registered).handler⟩ := by
  have installed : ((Catalog.ofHistory before).enter (.register setSignature (ofEntries registered).handler)).commands.get?
      "set" = some ⟨setSignature,(ofEntries registered).handler⟩ := Table.get?_insert.trans (if_pos rfl)
  have stays := (look_foldl_eq_some_iff (fun catalog : Catalog (Handler σ) => catalog.commands.get? "set")
    (Catalog.get?_commands_enter "set") _).mpr (.inr ⟨kept,installed⟩)
  rw [Catalog.find?,Catalog.ofHistory,List.foldl_append,List.foldl_cons]
  exact Option.or_eq_some_iff.mpr (.inl stays)

theorem kept_recorded (kept : ∀ registration ∈ after, registration.command? "set" = none) :
    ∀ registration ∈ Catalog.recorded after, registration.command? "set" = none := by
  intro registration member
  obtain ⟨place,inside,rfl⟩ := List.mem_mapIdx.mp member
  rw [Registration.command?_map,kept _ (List.getElem_mem inside),Option.map_none]

theorem listing_catalog_recorded : (Catalog.ofHistory (Catalog.recorded before ++
      .register setSignature (ofEntries (recorded registered)).handler :: Catalog.recorded after)).listing =
    (Catalog.ofHistory (before ++ .register setSignature (ofEntries registered).handler :: after)).listing := by
  rw [Catalog.listing_ofHistory,Catalog.listing_ofHistory,List.map_append,List.map_append,List.map_cons,List.map_cons,
    Catalog.map_recorded,Catalog.map_recorded]
  rfl

theorem dispatch_single {catalog : Catalog (Handler σ)}
    (found : catalog.find? "set" = some ⟨setSignature,known.handler⟩) : catalog.dispatch ["set",key] w =
      (w,.fail (BindingError.message (.missingArgument "set" "value" "set <variable> <value>"))) := by
  simp only [Catalog.dispatch,Catalog.route,Catalog.prepare,found,bind_set_single]
  rfl

theorem exists_asked (key : String) (written : rest ≠ []) : ∃ inv, Asked key rest inv ∧
    ∀ {τ : Type} {known : Variables τ} {catalog : Catalog (Handler τ)} {w : World τ},
      catalog.find? "set" = some ⟨setSignature,known.handler⟩ →
      catalog.dispatch ("set" :: key :: rest) w = known.handler catalog.listing inv w := by
  obtain ⟨value,more,rfl⟩ := List.exists_cons_of_ne_nil written
  obtain ⟨inv,bound,asked⟩ := bind_set key value more
  refine ⟨{ inv with line := " ".intercalate (key :: value :: more) },⟨asked.command,asked.raw,asked.chosen⟩,?_⟩
  intro τ known catalog w found
  simp only [Catalog.dispatch,Catalog.route,Catalog.prepare,found,bound]
  rfl

/-- Wherever `set` was installed, with whatever variables, its tokens go to the variable that was registered last under the
first of them, and to no handler when there is none, when they do not fit, or when nothing stands behind the name. That no
other handler runs is told by the same catalog with handlers that keep a record of their calls. -/
theorem set_delegates (before after : List (Registration (Handler σ))) (registered : List (Entry (Handler σ)))
    (kept : ∀ registration ∈ after, registration.command? "set" = none) : ∃ plain beside,
      catalog before registered after = .ok plain ∧
      catalog (Catalog.recorded before) (recorded registered) (Catalog.recorded after) = .ok beside ∧
      ∀ (w : World σ) key rest, ∃ calls,
        beside.dispatch ("set" :: key :: rest) (w.recording []) =
          ((plain.dispatch ("set" :: key :: rest) w).1.recording calls,(plain.dispatch ("set" :: key :: rest) w).2) ∧
        Delegated registered plain.listing w key rest calls (plain.dispatch ("set" :: key :: rest) w) := by
  refine ⟨_,_,catalog_eq,catalog_eq,fun w key rest => ?_⟩
  have found := find?_catalog before registered kept
  have beside := find?_catalog (Catalog.recorded before) (recorded registered) (kept_recorded kept)
  by_cases nothing : rest = []
  · subst nothing
    rw [dispatch_single found,dispatch_single beside]
    exact ⟨[],rfl,.missing rfl⟩
  obtain ⟨inv,asked,dispatched⟩ := exists_asked key nothing
  rw [dispatched found,dispatched beside,listing_catalog_recorded]
  exact handler_delegated nothing asked

def levelSignature : Signature :=
  ⟨"level","","",[⟨"n","",[⟨.int,.zero,.zero,false⟩],[]⟩],[⟨"-x","",[⟨.int,.zero,.zero,false⟩],.int 1,[]⟩]⟩

/-- A variable that was registered twice, and another one between. -/
def levels : List (Entry (Handler Unit)) :=
  [⟨levelSignature,fun _ _ w => (w,.fail "")⟩,⟨{ levelSignature with name := "depth" },fun _ _ w => (w,.fail "")⟩,
    ⟨levelSignature,fun _ inv w => (w,.succeed (" ".intercalate inv.raw))⟩]

theorem set_delegates_replaced : ∃ plain, catalog [] levels [.addAlias "put" "set"] = .ok plain ∧
    (∃ calls, Delegated levels plain.listing ⟨⟨(),0,[]⟩,.initial⟩ "level" ["-x=2","5"] calls
      (plain.dispatch ["set","level","-x=2","5"] ⟨⟨(),0,[]⟩,.initial⟩)) ∧
    (plain.dispatch ["set","level","-x=2","5"] ⟨⟨(),0,[]⟩,.initial⟩).2 = .succeed "-x=2 5" ∧
    (plain.dispatch ["set","level","-x=2"] ⟨⟨(),0,[]⟩,.initial⟩).2 = .fail "set level: missing argument 'n'. Usage: " ∧
    (plain.dispatch ["set","width","-x=2"] ⟨⟨(),0,[]⟩,.initial⟩).2 =
      .fail "Variable not found: width. Known variables: depth, level" := by
  obtain ⟨plain,_,made,_,delegated⟩ := set_delegates [] [.addAlias "put" "set"] levels (by simp [Registration.command?])
  obtain ⟨calls,_,handed⟩ := delegated ⟨⟨(),0,[]⟩,.initial⟩ "level" ["-x=2","5"]
  refine ⟨plain,made,⟨calls,handed⟩,?_⟩
  rw [catalog_eq,Except.ok.injEq] at made
  subst made
  decide +kernel

end Variables
end TreeConsole
