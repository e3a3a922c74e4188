import TreeConsole.Proofs.Chain.Scan
import TreeConsole.Proofs.Text.Quoting

/-! Blanks around a chain.
A scan takes a blank along without a change of nesting, so that blanks at the ends of a chain end up at the ends of its
first and its last piece, where they are trimmed away.
-/
namespace TreeConsole.Chain
open Text
variable {separator c d : Char} {state next : Nesting} {cs : List Char} {parts others : List (List Char)}

theorem ne_of_isBlank (blank : isBlank c = true) (solid : isBlank d = false) : c ≠ d := by
  rintro rfl
  rw [blank] at solid
  cases solid

/-- A nesting inside of nothing but quotes. -/
def Quoted (state : Nesting) : Prop := ∀ quote, state.quote = some quote → isQuote quote = true

theorem Quoted.unquoted (depth : Nat) : Quoted ⟨none,depth⟩ := by
  intro quote inside
  cases inside

theorem Quoted.outside : Quoted .outside := unquoted 0

theorem Quoted.after (quoted : Quoted state) (step : state.after c = some next) : Quoted next := by
  unfold Nesting.after at step
  split at step
  next =>
    cases step
    split
    · exact .unquoted _
    · exact quoted
  next =>
    split at step
    next opens =>
      cases step
      intro quote inside
      cases inside
      exact opens
    · split at step
      · cases step
        exact .unquoted _
      · split at step
        · split at step
          · cases step
          · cases step
            exact .unquoted _
        · cases step
          exact quoted

theorem plain_of_isBlank (blank : isBlank c = true) (solid : isBlank separator = false) : Plain separator c := by
  have bare : isQuote c = false := by
    cases isQuote : isQuote c with
    | false => rfl
    | true => exact absurd rfl (ne_of_isBlank blank (isBlank_of_isQuote isQuote))
  exact ⟨ne_of_isBlank blank solid,bare,ne_of_isBlank blank (by decide),ne_of_isBlank blank (by decide)⟩

theorem after_blank (blank : isBlank c = true) (quoted : Quoted state) : state.after c = some state := by
  obtain ⟨quote,depth⟩ := state
  cases quote with
  | none =>
    have plain : Plain '(' c := plain_of_isBlank blank (by decide)
    exact after_plain plain.2.1 plain.2.2.1 plain.2.2.2
  | some quote =>
    have other : c ≠ quote := ne_of_isBlank blank (isBlank_of_isQuote (quoted quote rfl))
    simp [Nesting.after,other]

theorem scan_cons_blank (blank : isBlank c = true) (solid : isBlank separator = false) (quoted : Quoted state)
    (cs : List Char) : scan separator state (c :: cs) = (scan separator state cs).map (extend c) := by
  have within : ¬ (c = separator ∧ state = .outside) := fun both => ne_of_isBlank blank solid both.1
  rw [scan,if_neg within,after_blank blank quoted,Option.bind_some]

theorem map_trimEnd_extend (same : parts.map trimEnd = others.map trimEnd) (c : Char) :
    (extend c parts).map trimEnd = (extend c others).map trimEnd := by
  cases parts with
  | nil =>
    obtain rfl := List.map_eq_nil_iff.mp same.symm
    rfl
  | cons first more =>
    obtain ⟨second,later,rfl⟩ := List.exists_cons_of_ne_nil (l := others) (by rintro rfl; cases same)
    obtain ⟨head,tail⟩ := List.cons.inj same
    simp only [extend,List.map_cons,trimEnd_cons,head,tail]

/-- What depends on pieces up to the blanks behind them is the same for scans that agree up to these. -/
theorem map_of_map_trimEnd {α : Type} {first second : Option (List (List Char))} {image : List (List Char) → α}
    (each : ∀ {parts others : List (List Char)}, parts.map trimEnd = others.map trimEnd → image parts = image others)
    (same : first.map (List.map trimEnd) = second.map (List.map trimEnd)) : first.map image = second.map image := by
  cases first with
  | none => rw [Option.map_eq_none_iff.mp same.symm]
  | some parts =>
    obtain ⟨others,rfl,alike⟩ := Option.map_eq_some_iff.mp same.symm
    exact congrArg some (each alike.symm)

/-- A blank behind a text stays at the end of its last piece. -/
theorem scan_concat_blank (blank : isBlank c = true) (solid : isBlank separator = false) (quoted : Quoted state) :
    (scan separator state (cs ++ [c])).map (List.map trimEnd) = (scan separator state cs).map (List.map trimEnd) := by
  induction cs generalizing state with
  | nil =>
    rw [List.nil_append,scan_cons_blank blank solid quoted]
    unfold scan
    split
    · have nothing : trimEnd [c] = trimEnd [] := by simp [trimEnd,blank]
      simp [extend,nothing]
    · rfl
  | cons d rest ih =>
    rw [List.cons_append,scan,scan]
    split
    · have later := ih Quoted.outside
      have joined := congrArg (Option.map (trimEnd [] :: ·)) later
      simpa [Option.map_map,Function.comp_def] using joined
    · cases step : state.after d with
      | none => rfl
      | some next =>
        have later := ih (quoted.after step)
        rw [Option.bind_some,Option.bind_some,Option.map_map,Option.map_map]
        exact map_of_map_trimEnd (fun same => map_trimEnd_extend same d) later

theorem clean_extend (blank : isBlank c = true) : clean (extend c parts) = clean parts := by
  cases parts with
  | nil =>
    have nothing : trim [c] = [] := trim_cons_blank blank
    simp [extend,clean,nothing]
  | cons first more => simp only [extend,clean,List.map_cons,trim_cons_blank blank]

theorem clean_congr (same : parts.map trimEnd = others.map trimEnd) : clean parts = clean others := by
  have trimmed (parts : List (List Char)) : parts.map trim = (parts.map trimEnd).map trimStart := by
    rw [List.map_map]
    exact List.map_congr_left fun part _ => trim_eq part
  rw [clean,clean,trimmed,trimmed,same]

theorem splitOutside_trim (solid : isBlank separator = false) (cs : List Char) :
    splitOutside separator (trim cs) = splitOutside separator cs := by
  refine apply_trim ?_ ?_ cs
  · intro c cs blank
    rw [splitOutside,splitOutside,scan_cons_blank blank solid Quoted.outside,Option.map_map]
    exact congrArg (Option.map · _) (funext fun parts => clean_extend blank)
  · intro c cs blank
    exact map_of_map_trimEnd clean_congr (scan_concat_blank blank solid Quoted.outside)

theorem segments_trimmed (text : String) : segments (Text.trimmed text) = segments text := by
  have twice : Text.trimmed (Text.trimmed text) = Text.trimmed text := by
    rw [Text.trimmed,Text.trimmed,String.toList_ofList,trim_trim]
  have split : splitOutside '.' (Text.trimmed text).toList = splitOutside '.' text.toList := by
    rw [Text.trimmed,String.toList_ofList]
    exact splitOutside_trim (by decide) text.toList
  rw [segments,segments,split,twice]

/-- Blanks around a chain do not change what is read, nor the text of a complaint about it. -/
theorem read_trimmed (text : String) : read (Text.trimmed text) = read text := by
  rw [read,read,segments_trimmed]

end TreeConsole.Chain
