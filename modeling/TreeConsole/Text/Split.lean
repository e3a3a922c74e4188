import TreeConsole.Text.Blank

/-! Cutting a text into pieces.
`pieces` cuts at every character of a class and loses only those characters, `cut` at the first
occurrence of one character, `splitText` at every occurrence of a word, from the left and without overlap.
`words` are the non-empty pieces between blank characters; `splitClean` trims its pieces and keeps the
non-empty ones.
-/
namespace TreeConsole.Text

/-- The parts of a text between the characters that satisfy `sep`; there is always at least one. -/
def pieces (sep : Char → Bool) : List Char → List (List Char)
  | [] => [[]]
  | c :: rest =>
    if sep c then [] :: pieces sep rest
    else match pieces sep rest with
      | [] => [[c]]
      | first :: more => (c :: first) :: more

/-- The text before and after the first `c`. -/
def cut (c : Char) : List Char → Option (List Char × List Char)
  | [] => none
  | d :: rest => if d = c then some ([],rest) else (cut c rest).map fun (before,after) => (d :: before,after)

/-- The text before and after the first occurrence of the word `c :: more`. -/
def cutText (c : Char) (more : List Char) : List Char → Option (List Char × List Char)
  | [] => none
  | d :: rest =>
    if (c :: more).isPrefixOf (d :: rest) then some ([],rest.drop more.length)
    else (cutText c more rest).map fun (before,after) => (d :: before,after)

theorem length_of_cutText {c : Char} {more cs before after : List Char}
    (found : cutText c more cs = some (before,after)) : after.length < cs.length := by
  induction cs generalizing before with
  | nil => simp [cutText] at found
  | cons d rest ih =>
    unfold cutText at found
    split at found
    · cases found
      simp only [List.length_drop,List.length_cons]
      omega
    · obtain ⟨⟨inner,left⟩,inside,equal⟩ := Option.map_eq_some_iff.mp found
      cases equal
      exact Nat.lt_succ_of_lt (ih inside)

/-- The parts of a text between the occurrences of the word `c :: more`. -/
def splitText (c : Char) (more : List Char) (cs : List Char) : List (List Char) :=
  match _ : cutText c more cs with
  | none => [cs]
  | some (before,after) => before :: splitText c more after
termination_by cs.length
decreasing_by exact length_of_cutText ‹_›

def clean (parts : List (List Char)) : List (List Char) := (parts.map trim).filter (!·.isEmpty)

/-- The trimmed non-empty pieces between occurrences of a separator; an empty separator cuts nowhere. -/
def splitClean (text separator : String) : List String :=
  let parts := match separator.toList with
    | [] => [text.toList]
    | c :: more => splitText c more text.toList
  (clean parts).map String.ofList

def words (cs : List Char) : List (List Char) := (pieces isBlank cs).filter (!·.isEmpty)

theorem pieces_ne_nil (sep : Char → Bool) (cs : List Char) : pieces sep cs ≠ [] := by
  cases cs with
  | nil => simp [pieces]
  | cons c rest =>
    unfold pieces
    split
    · simp
    · split <;> simp

theorem cut_eq_append {c : Char} {cs before after : List Char} (found : cut c cs = some (before,after)) :
    cs = before ++ c :: after ∧ c ∉ before := by
  induction cs generalizing before with
  | nil => simp [cut] at found
  | cons d rest ih =>
    unfold cut at found
    split at found
    next same => cases found; simp [same]
    next other =>
      obtain ⟨⟨inner,left⟩,inside,equal⟩ := Option.map_eq_some_iff.mp found
      cases equal
      obtain ⟨rebuilt,absent⟩ := ih inside
      exact ⟨by simp [rebuilt],by simp [absent,Ne.symm other]⟩

end TreeConsole.Text
