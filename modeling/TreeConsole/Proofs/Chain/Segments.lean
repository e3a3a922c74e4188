import TreeConsole.Proofs.Chain.Balance
import TreeConsole.Proofs.Chain.Blank

/-! Segments of a chain.
A scan that ends outside has nothing left open when it meets the next separator, so a chain that can be cut and what is
added to it behind a dot are cut each on its own. A segment is a chain that has itself as its only segment.
-/
namespace TreeConsole.Chain
open Text
variable {separator : Char} {state : Nesting} {cs part : List Char} {parts : List (List Char)}
variable {text segment : String} {segmented : List String} {error : ChainError}

/-! Cutting behind a text that can be cut -/

theorem scan_append_separator (found : scan separator state cs = some parts) (rest : List Char) :
    scan separator state (cs ++ separator :: rest) = (scan separator .outside rest).map (parts ++ ·) := by
  induction cs generalizing state parts with
  | nil =>
    obtain ⟨rfl,same⟩ := Option.ite_none_right_eq_some.mp found
    cases same
    exact scan_separator
  | cons c later ih =>
    rw [scan] at found
    rw [List.cons_append,scan]
    split at found
    next separates =>
      obtain ⟨others,behind,rfl⟩ := Option.map_eq_some_iff.mp found
      rw [if_pos separates,ih behind,Option.map_map]
      rfl
    next within =>
      obtain ⟨next,step,joined⟩ := Option.bind_eq_some_iff.mp found
      obtain ⟨others,behind,rfl⟩ := Option.map_eq_some_iff.mp joined
      -- The character joins the first piece, and there is one before those of the rest.
      obtain ⟨first,more,rfl,_⟩ := exists_of_scan behind
      rw [if_neg within,step,Option.bind_some,ih behind,Option.map_map]
      rfl

theorem splitOutside_append_separator (found : splitOutside separator cs = some parts) (rest : List Char) :
    splitOutside separator (cs ++ separator :: rest) = (splitOutside separator rest).map (parts ++ ·) := by
  obtain ⟨pieces,scanned,rfl⟩ := Option.map_eq_some_iff.mp found
  rw [splitOutside,scan_append_separator scanned,splitOutside,Option.map_map,Option.map_map]
  exact congrArg (Option.map · _) (funext fun others => clean_append pieces others)

/-- What is left of a piece after trimming is its own only piece, since the blanks at its ends stood outside. -/
theorem splitOutside_of_mem (solid : isBlank separator = false) (found : splitOutside separator cs = some parts)
    (member : part ∈ parts) : part ≠ [] ∧ trim part = part ∧ splitOutside separator part = some [part] := by
  obtain ⟨pieces,scanned,rfl⟩ := Option.map_eq_some_iff.mp found
  obtain ⟨trimmed,nonempty⟩ := List.mem_filter.mp member
  obtain ⟨piece,inside,rfl⟩ := List.mem_map.mp trimmed
  have some : trim piece ≠ [] := by simpa using nonempty
  have alone := splitOutside_of_passes ((scan_outside_iff.mp scanned).2.2 piece inside)
  have kept : clean [piece] = [trim piece] := clean_eq rfl (List.forall_mem_singleton.mpr some)
  rw [kept,← splitOutside_trim solid] at alone
  exact ⟨some,trim_trim piece,alone⟩

/-! Segments -/

theorem segments_eq_ok_iff : segments text = .ok segmented ↔
    ∃ parts, splitOutside '.' text.toList = some parts ∧ parts.map String.ofList = segmented := by
  unfold segments
  cases splitOutside '.' text.toList <;> simp

theorem segments_eq_error_iff : segments text = .error error ↔
    splitOutside '.' text.toList = none ∧ error = .malformed (trimmed text) := by
  unfold segments
  cases splitOutside '.' text.toList <;> simp [eq_comm]

/-- The segments of a balanced chain are the pieces between the dots outside, trimmed, without the empty ones. -/
theorem segments_iff_parts : segments text = .ok segmented ↔ Balanced text.toList ∧
    ∃ pieces, Parts '.' text.toList pieces ∧ (clean pieces).map String.ofList = segmented := by
  have dot : Balanced ['.'] := .plain (List.forall_mem_singleton.mpr (by decide))
  rw [segments_eq_ok_iff,splitOutside]
  simp only [Option.map_eq_some_iff,scan_iff_parts dot]
  constructor
  · rintro ⟨_,⟨pieces,⟨balanced,cut⟩,rfl⟩,same⟩
    exact ⟨balanced,pieces,cut,same⟩
  · rintro ⟨balanced,pieces,cut,same⟩
    exact ⟨_,⟨pieces,⟨balanced,cut⟩,rfl⟩,same⟩

theorem toList_dotted (text behind : String) : (text ++ "." ++ behind).toList = text.toList ++ '.' :: behind.toList := by
  simp

theorem segments_append (found : segments text = .ok segmented) {behind : String} {others : List String}
    (later : segments behind = .ok others) : segments (text ++ "." ++ behind) = .ok (segmented ++ others) := by
  obtain ⟨parts,cut,rfl⟩ := segments_eq_ok_iff.mp found
  obtain ⟨more,cutBehind,rfl⟩ := segments_eq_ok_iff.mp later
  refine segments_eq_ok_iff.mpr ⟨parts ++ more,?_,List.map_append⟩
  rw [toList_dotted,splitOutside_append_separator cut,cutBehind]
  rfl

theorem segments_append_error (found : segments text = .ok segmented) {behind : String}
    (uncut : segments behind = .error error) :
    segments (text ++ "." ++ behind) = .error (.malformed (trimmed (text ++ "." ++ behind))) := by
  obtain ⟨parts,cut,_⟩ := segments_eq_ok_iff.mp found
  refine segments_eq_error_iff.mpr ⟨?_,rfl⟩
  rw [toList_dotted,splitOutside_append_separator cut,(segments_eq_error_iff.mp uncut).1]
  rfl

theorem segments_of_mem (found : segments text = .ok segmented) (member : segment ∈ segmented) :
    segment ≠ "" ∧ trimmed segment = segment ∧ segments segment = .ok [segment] := by
  obtain ⟨parts,cut,rfl⟩ := segments_eq_ok_iff.mp found
  obtain ⟨part,inside,rfl⟩ := List.mem_map.mp member
  obtain ⟨some,firm,alone⟩ := splitOutside_of_mem (by decide) cut inside
  have same : (String.ofList part).toList = part := String.toList_ofList
  refine ⟨?_,by rw [trimmed,same,firm],segments_eq_ok_iff.mpr ⟨[part],by rw [same,alone],rfl⟩⟩
  intro empty
  exact some (same.symm.trans (congrArg String.toList empty))

theorem segments_of_passes (passes : Passes '.' .outside segment.toList .outside) (firm : trim segment.toList = segment.toList)
    (some : segment.toList ≠ []) : segments segment = .ok [segment] := by
  have kept : clean [segment.toList] = [segment.toList] :=
    clean_eq (congrArg List.singleton firm) (List.forall_mem_singleton.mpr some)
  exact segments_eq_ok_iff.mpr ⟨_,kept ▸ splitOutside_of_passes passes,by simp⟩

theorem segments_intercalate (each : ∀ segment ∈ segmented, segments segment = .ok [segment]) :
    segments (".".intercalate segmented) = .ok segmented := by
  induction segmented with
  | nil => rfl
  | cons first more ih =>
    obtain ⟨here,later⟩ := List.forall_mem_cons.mp each
    cases more with
    | nil => rw [String.intercalate_singleton,here]
    | cons second rest =>
      rw [String.intercalate_cons_cons]
      exact segments_append here (ih later)

/-- A chain that can be cut is cut at its dots outside, and has no effect on how the text behind a further dot is cut: the
segments of the two follow each other, or the whole is malformed with the added text. Every segment is a trimmed text with
itself as its only segment, and the segments joined by dots are cut into the same segments. -/
theorem segments_dotted (text : String) :
    (∀ segmented, segments text = .ok segmented ↔ Balanced text.toList ∧
      ∃ pieces, Parts '.' text.toList pieces ∧ (clean pieces).map String.ofList = segmented) ∧
    ∀ segmented, segments text = .ok segmented →
      (∀ behind others, segments behind = .ok others → segments (text ++ "." ++ behind) = .ok (segmented ++ others)) ∧
      (∀ behind refused, segments behind = .error (.malformed refused) →
        segments (text ++ "." ++ behind) = .error (.malformed (trimmed (text ++ "." ++ behind)))) ∧
      (∀ segment ∈ segmented, segment ≠ "" ∧ trimmed segment = segment ∧ segments segment = .ok [segment]) ∧
      segments (".".intercalate segmented) = .ok segmented := by
  refine ⟨fun _ => segments_iff_parts,fun segmented found => ⟨?_,?_,?_,?_⟩⟩
  · exact fun _ _ later => segments_append found later
  · exact fun _ _ uncut => segments_append_error found uncut
  · exact fun _ member => segments_of_mem found member
  · exact segments_intercalate fun _ member => (segments_of_mem found member).2.2

/-- Blanks, empty pieces, and dots inside quotes and parentheses, before a text that can be cut and one that cannot. -/
theorem segments_dotted_nested :
    segments " say('a.b ) ') .. at(1.5)." = .ok ["say('a.b ) ')","at(1.5)"] ∧
    segments " say('a.b ) ') .. at(1.5).. c .d" = .ok ["say('a.b ) ')","at(1.5)","c","d"] ∧
    segments " say('a.b ) ') .. at(1.5)..c)" = .error (.malformed "say('a.b ) ') .. at(1.5)..c)") ∧
    segments "say('a.b ) ')" = .ok ["say('a.b ) ')"] ∧
    segments "say('a.b ) ').at(1.5)" = .ok ["say('a.b ) ')","at(1.5)"] := by
  have cut : segments " say('a.b ) ') .. at(1.5)." = .ok ["say('a.b ) ')","at(1.5)"] := rfl
  obtain ⟨joined,refused,single,stable⟩ := (segments_dotted " say('a.b ) ') .. at(1.5).").2 _ cut
  exact ⟨cut,joined " c .d" ["c","d"] rfl,refused "c)" "c)" rfl,(single _ List.mem_cons_self).2.2,stable⟩

end TreeConsole.Chain
