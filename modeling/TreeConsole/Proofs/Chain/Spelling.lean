import TreeConsole.Proofs.Chain.Segments
import TreeConsole.Proofs.Text.Quoting
import Mathlib.Data.List.Forall2

/-! Calls as they are written.
Values and calls have spellings: a string stands between quotes that it does not contain, the arguments of a call
between commas, the calls of a chain between dots. Whatever its strings contain, a chain that is spelled in this way
is read back as the calls that it spells.
-/
namespace TreeConsole
open Text

/-- The ways to write a value as an argument. -/
inductive Value.Spells : Value → String → Prop
  | null : Spells .null "null"
  | bool (b : Bool) : Spells (.bool b) (boolText b)
  | int (i : Int64) : Spells (.int i) (int64Text i)
  | string (s : String) (quote : Char) (isQuote : isQuote quote = true) (absent : quote ∉ s.toList) :
      Spells (.string s) (String.singleton quote ++ s ++ String.singleton quote)

/-- Values that can be written: of the strings, those on one line that lack one of the quotes. -/
def Value.Writable : Value → Prop
  | .null | .bool _ | .int _ => True
  | .string s => '\n' ∉ s.toList ∧ ¬ ('"' ∈ s.toList ∧ '\'' ∈ s.toList)
  | .float _ | .list _ | .object _ => False

namespace Call

def Spells (call : Call) (text : String) : Prop :=
  ∃ literals, List.Forall₂ Value.Spells call.args literals ∧ text = call.method ++ "(" ++ ", ".intercalate literals ++ ")"

/-- A letter or an underscore, then letters, digits and underscores. -/
def IsName (name : List Char) : Prop :=
  ∃ first more, name = first :: more ∧ isNameStart first = true ∧ ∀ c ∈ more, isNameChar c = true

structure Writable (call : Call) : Prop where
  name : ∃ first more, call.method.toList = first :: more ∧ isNameStart first = true ∧ ∀ c ∈ more, isNameChar c = true
  args : ∀ v ∈ call.args, v.Writable

end Call

/-! Characters of words -/

/-- A character of names, words and numbers. -/
def isWordChar (c : Char) : Bool := Call.isNameChar c || c == '-'

section Characters
variable {c other separator : Char}

theorem toNat_of_isWordChar (word : isWordChar c = true) : 45 ≤ c.toNat ∧ c.toNat ≤ 122 := by
  unfold isWordChar Call.isNameChar Char.isAlphanum Char.isAlpha Char.isUpper Char.isLower Char.isDigit at word
  simp only [Bool.or_eq_true,Bool.and_eq_true,decide_eq_true_eq,beq_iff_eq,UInt32.le_iff_toNat_le,ge_iff_le] at word
  have value : c.toNat = c.val.toNat := rfl
  rcases word with (((upper | lower) | digit) | rfl) | rfl
  · have first : 'A'.val.toNat = 65 := rfl
    have last : 'Z'.val.toNat = 90 := rfl
    omega
  · have first : 'a'.val.toNat = 97 := rfl
    have last : 'z'.val.toNat = 122 := rfl
    omega
  · have first : '0'.val.toNat = 48 := rfl
    have last : '9'.val.toNat = 57 := rfl
    omega
  · decide
  · decide

theorem isBlank_of_isWordChar (word : isWordChar c = true) : isBlank c = false := by
  have range := toNat_of_isWordChar word
  simp [isBlank,blankRanges]
  omega

theorem ne_of_isWordChar (word : isWordChar c = true) (foreign : isWordChar other = false) : c ≠ other := by
  rintro rfl
  simp [word] at foreign

theorem plain_of_isWordChar (word : isWordChar c = true) (foreign : isWordChar separator = false) :
    Chain.Plain separator c := by
  have notDouble : c ≠ '"' := ne_of_isWordChar word rfl
  have notSingle : c ≠ '\'' := ne_of_isWordChar word rfl
  exact ⟨ne_of_isWordChar word foreign,by simp [isQuote,notDouble,notSingle],ne_of_isWordChar word rfl,
    ne_of_isWordChar word rfl⟩

theorem isWordChar_of_isDigit (digit : c.isDigit = true) : isWordChar c = true := by
  simp [isWordChar,Call.isNameChar,Char.isAlphanum,digit]

end Characters

/-! Spelled values -/

namespace Value.Spells
variable {v : Value} {text : String} {separator : Char} {depth : Nat}

theorem isWordChar_of_mem_intText {i : Int} {c : Char} (member : c ∈ Number.intText i) : isWordChar c = true := by
  unfold Number.intText at member
  split at member
  · rcases List.mem_cons.mp member with rfl | digit
    · rfl
    · exact isWordChar_of_isDigit (Number.isDigit_of_mem_digits digit)
  · exact isWordChar_of_isDigit (Number.isDigit_of_mem_digits member)

theorem intText_ne_nil (i : Int) : Number.intText i ≠ [] := by
  unfold Number.intText
  split
  · simp
  · exact Number.digits_ne_nil _

theorem word_or_quoted (spelled : Spells v text) : (text.toList ≠ [] ∧ ∀ c ∈ text.toList, isWordChar c = true) ∨
    ∃ s quote, v = .string s ∧ isQuote quote = true ∧ quote ∉ s.toList ∧ text.toList = quote :: (s.toList ++ [quote]) := by
  cases spelled with
  | null => exact .inl ⟨by decide,List.all_eq_true.mp rfl⟩
  | bool b => cases b <;> exact .inl ⟨by decide,List.all_eq_true.mp rfl⟩
  | int i =>
    rw [int64Text,String.toList_ofList]
    exact .inl ⟨intText_ne_nil _,fun c member => isWordChar_of_mem_intText member⟩
  | string s quote isQuote absent => exact .inr ⟨s,quote,rfl,isQuote,absent,by simp⟩

theorem firm (spelled : Spells v text) : text.toList ≠ [] ∧ trim text.toList = text.toList := by
  rcases spelled.word_or_quoted with ⟨some,word⟩ | ⟨s,quote,_,isQuote,_,same⟩
  · have solid (c) (member : c ∈ text.toList) := isBlank_of_isWordChar (word c member)
    have start (c) (first : text.toList.head? = .some c) := solid c (List.mem_of_head? first)
    have last (c) (last : text.toList.getLast? = .some c) := solid c (List.mem_of_getLast? last)
    exact ⟨some,trim_eq_self start last⟩
  · have solid := isBlank_of_isQuote isQuote
    rw [same]
    refine ⟨by simp,trim_eq_self ?_ ?_⟩
    · simpa using solid
    · rw [← List.cons_append,List.getLast?_concat]
      simpa using solid

theorem passes (spelled : Spells v text) (foreign : isWordChar separator = false) (bare : isQuote separator = false) :
    Chain.Passes separator ⟨none,depth⟩ text.toList ⟨none,depth⟩ := by
  rcases spelled.word_or_quoted with ⟨_,word⟩ | ⟨s,quote,_,isQuote,absent,same⟩
  · exact .plain fun c member => plain_of_isWordChar (word c member) foreign
  · rw [same]
    exact .quoted isQuote absent bare

theorem oneLine (spelled : Spells v text) (writable : v.Writable) : '\n' ∉ text.toList := by
  rcases spelled.word_or_quoted with ⟨_,word⟩ | ⟨s,quote,rfl,isQuote,_,same⟩
  · exact fun member => ne_of_isWordChar (word '\n' member) rfl rfl
  · have other : '\n' ≠ quote := by
      rintro rfl
      cases isQuote
    rw [same]
    simpa [other] using writable.1

theorem unquote?_word {cs : List Char} (word : ∀ c ∈ cs, isWordChar c = true) : unquote? cs = none := by
  cases cs with
  | nil => rfl
  | cons c rest =>
    have plain : Chain.Plain ',' c := plain_of_isWordChar (word c (by simp)) rfl
    simp [unquote?,plain.2.1]

theorem ofTrimmed_intText (i : Int64) : Value.ofTrimmed (Number.intText i.toInt) = .int i := by
  have bare : unquote? (Number.intText i.toInt) = none := unquote?_word fun c member => isWordChar_of_mem_intText member
  have read := Number.readInt64?_intText i
  have other {word : String} (unread : Number.readInt64? word.toList = none) :
      String.ofList (Number.intText i.toInt) ≠ word := by
    rintro rfl
    rw [String.toList_ofList,read] at unread
    cases unread
  simp only [Value.ofTrimmed,bare]
  split
  next same => exact absurd same (other (by decide))
  next same => exact absurd same (other (by decide))
  next same => exact absurd same (other (by decide))
  next => rw [read]

theorem ofTrimmed (spelled : Spells v text) : ofTrimmed text.toList = v := by
  cases spelled with
  | null => rfl
  | bool b => cases b <;> rfl
  | int i => rw [int64Text,String.toList_ofList,ofTrimmed_intText]
  | string s quote isQuote absent =>
    have opened : (String.singleton quote ++ s ++ String.singleton quote).toList = quote :: (s.toList ++ [quote]) := by simp
    rw [opened]
    simp [Value.ofTrimmed,unquote?,isQuote,closing_concat]

end Value.Spells

theorem Value.exists_spells {v : Value} (writable : v.Writable) : ∃ text, Spells v text := by
  cases v with
  | null => exact ⟨_,.null⟩
  | bool b => exact ⟨_,.bool b⟩
  | int i => exact ⟨_,.int i⟩
  | string s =>
    by_cases double : '"' ∈ s.toList
    · exact ⟨_,.string s '\'' rfl fun single => writable.2 ⟨double,single⟩⟩
    · exact ⟨_,.string s '"' rfl double⟩
  | float => cases writable
  | list => cases writable
  | object => cases writable

/-! Spelled calls -/

theorem exists_related {α β : Type} {R : α → β → Prop} {xs : List α} (each : ∀ x ∈ xs, ∃ y, R x y) :
    ∃ ys, List.Forall₂ R xs ys := by
  induction xs with
  | nil => exact ⟨[],.nil⟩
  | cons x later ih =>
    obtain ⟨y,related⟩ := each x (by simp)
    obtain ⟨ys,behind⟩ := ih fun z member => each z (by simp [member])
    exact ⟨y :: ys,.cons related behind⟩

theorem exists_of_mem_right {α β : Type} {R : α → β → Prop} {xs : List α} {ys : List β} (related : List.Forall₂ R xs ys)
    {y : β} (member : y ∈ ys) : ∃ x ∈ xs, R x y := by
  induction related with
  | nil => cases member
  | @cons x first xs ys head _ ih =>
    rcases List.mem_cons.mp member with rfl | later
    · exact ⟨x,by simp,head⟩
    · obtain ⟨other,inside,relation⟩ := ih later
      exact ⟨other,by simp [inside],relation⟩

namespace Call
variable {call : Call} {args : List Value} {literals : List String} {text : String} {depth : Nat}
  {name blanks rest : List Char}

def listText (literals : List String) : List Char := [',',' '].intercalate (literals.map String.toList)

theorem passes_listText (spelled : List.Forall₂ Value.Spells args literals) :
    Chain.Passes '.' ⟨none,depth⟩ (listText literals) ⟨none,depth⟩ := by
  have comma : Chain.Passes '.' ⟨none,depth⟩ [',',' '] ⟨none,depth⟩ :=
    .plain (List.forall_mem_cons.mpr ⟨by decide,List.forall_mem_singleton.mpr (by decide)⟩)
  have later {args : List Value} {literals : List String} (spelled : List.Forall₂ Value.Spells args literals) :
      Chain.Passes '.' ⟨none,depth⟩ ((literals.map String.toList).flatMap ([',',' '] ++ ·)) ⟨none,depth⟩ := by
    induction spelled with
    | nil => exact .nil
    | cons head _ ih => exact (comma.append (head.passes rfl rfl)).append ih
  cases spelled with
  | nil => exact .nil
  | cons head tail =>
    rw [listText,List.map_cons,intercalate_cons]
    exact (head.passes rfl rfl).append (later tail)

theorem oneLine_listText (spelled : List.Forall₂ Value.Spells args literals) (writable : ∀ v ∈ args, v.Writable) :
    '\n' ∉ listText literals := by
  intro member
  rcases mem_intercalate member with between | ⟨part,isPart,inside⟩
  · simp at between
  · obtain ⟨literal,isLiteral,rfl⟩ := List.mem_map.mp isPart
    obtain ⟨v,isArgument,spells⟩ := exists_of_mem_right spelled isLiteral
    exact spells.oneLine (writable v isArgument) inside

/-- The pieces between the commas of a list, trimmed, are its literals. -/
theorem splitOutside_listText (spelled : List.Forall₂ Value.Spells args literals) :
    Chain.splitOutside ',' (listText literals) = some (literals.map String.toList) := by
  cases spelled with
  | nil => rfl
  | @cons v text args later head tail =>
    have commas : listText (text :: later) =
        [','].intercalate (text.toList :: later.map fun text => ' ' :: text.toList) := by
      simp [listText,intercalate_cons,List.flatMap_map]
    have space : Chain.Passes ',' .outside [' '] .outside := .plain (List.forall_mem_singleton.mpr (by decide))
    have pass : ∀ part ∈ text.toList :: later.map (fun text => ' ' :: text.toList),
        Chain.Passes ',' .outside part .outside := by
      intro part member
      rcases List.mem_cons.mp member with rfl | behind
      · exact head.passes rfl rfl
      · obtain ⟨literal,isLiteral,rfl⟩ := List.mem_map.mp behind
        obtain ⟨v,_,spells⟩ := exists_of_mem_right tail isLiteral
        exact space.append (spells.passes rfl rfl)
    have trimmed : (text.toList :: later.map fun text => ' ' :: text.toList).map trim =
        (text :: later).map String.toList := by
      rw [List.map_cons,List.map_cons,head.firm.2,List.map_map]
      congr 1
      refine List.map_congr_left fun literal isLiteral => ?_
      obtain ⟨v,_,spells⟩ := exists_of_mem_right tail isLiteral
      rw [Function.comp_apply,trim_cons_blank (by decide),spells.firm.2]
    rw [commas,Chain.splitOutside_intercalate pass,clean_eq trimmed]
    intro part member
    obtain ⟨literal,isLiteral,rfl⟩ := List.mem_map.mp member
    obtain ⟨v,_,spells⟩ := exists_of_mem_right (.cons head tail) isLiteral
    exact spells.firm.1

theorem readArguments?_listText (spelled : List.Forall₂ Value.Spells args literals) :
    readArguments? (listText literals) = some args := by
  have related : List.Forall₂ (· = ·) args (literals.map fun text => Value.ofTrimmed text.toList) :=
    List.forall₂_map_right_iff.mpr (spelled.imp fun v text spells => spells.ofTrimmed.symm)
  rw [List.forall₂_eq_eq_eq] at related
  rw [readArguments?,splitOutside_listText spelled,Option.map_some,List.map_map,related]
  rfl

theorem Spells.toList_eq (spelled : call.Spells text) : ∃ literals, List.Forall₂ Value.Spells call.args literals ∧
    text.toList = call.method.toList ++ '(' :: (listText literals ++ [')']) := by
  obtain ⟨literals,spells,rfl⟩ := spelled
  refine ⟨literals,spells,?_⟩
  simp [listText,String.toList_intercalate]

theorem IsName.isNameChar_of_mem (named : IsName name) : ∀ c ∈ name, isNameChar c = true := by
  obtain ⟨first,more,rfl,starts,continues⟩ := named
  refine List.forall_mem_cons.mpr ⟨?_,continues⟩
  simp only [isNameStart,Bool.or_eq_true] at starts
  simp only [isNameChar,Char.isAlphanum,Bool.or_eq_true]
  exact starts.imp_left .inl

theorem IsName.isWordChar_of_mem (named : IsName name) : ∀ c ∈ name, isWordChar c = true := by
  intro c member
  simp [isWordChar,named.isNameChar_of_mem c member]

theorem Writable.named (writable : call.Writable) : IsName call.method.toList := writable.name

theorem isNameChar_of_isBlank {c : Char} (blank : isBlank c = true) : isNameChar c = false := by
  cases inside : isNameChar c with
  | false => rfl
  | true =>
    have solid := @isBlank_of_isWordChar c (by simp [isWordChar,inside])
    exact absurd (solid.symm.trans blank) Bool.false_ne_true

/-- Behind a name and blanks there is nothing to read but a list. -/
theorem readTrimmed?_named (named : IsName name) (blank : ∀ c ∈ blanks, isBlank c = true)
    (opens : ∀ c, rest.head? = some c → c = '(') :
    readTrimmed? (name ++ (blanks ++ rest)) = (readList? rest).map fun args => ⟨String.ofList name,args⟩ := by
  have stop : ∀ c ∈ (blanks ++ rest).head?, isNameChar c = false := by
    intro c head
    cases blanks with
    | nil =>
      obtain rfl := opens c head
      rfl
    | cons d more =>
      cases head
      exact isNameChar_of_isBlank (blank c (by simp))
  have trimmed : trimStart (blanks ++ rest) = rest := by
    refine trimStart_append blank fun c head => ?_
    obtain rfl := opens c head
    rfl
  have spanned := span_append named.isNameChar_of_mem stop
  obtain ⟨first,more,rfl,starts,_⟩ := named
  rw [readTrimmed?,spanned]
  simp only [List.head?_cons,Option.any_some,starts,if_true,trimmed]

theorem Spells.readTrimmed? (spelled : call.Spells text) (writable : call.Writable) :
    readTrimmed? text.toList = some call := by
  obtain ⟨literals,spells,same⟩ := spelled.toList_eq
  have opens : ∀ c, ('(' :: (listText literals ++ [')'])).head? = some c → c = '(' := by simp
  have found := readTrimmed?_named writable.named (List.forall_mem_nil _) opens
  have listed : readList? ('(' :: (listText literals ++ [')'])) = some call.args := by
    rw [readList?,closing_concat,Option.bind_some,if_neg (oneLine_listText spells writable.args),
      readArguments?_listText spells]
  rw [List.nil_append,listed,String.ofList_toList] at found
  rw [same,found]
  rfl

theorem Spells.firm (spelled : call.Spells text) (writable : call.Writable) :
    text.toList ≠ [] ∧ trim text.toList = text.toList := by
  obtain ⟨literals,_,same⟩ := spelled.toList_eq
  obtain ⟨first,more,named,_⟩ := writable.name
  have solid := isBlank_of_isWordChar (writable.named.isWordChar_of_mem first (by simp [named]))
  refine ⟨by simp [same],trim_eq_self ?_ ?_⟩
  · simpa [same,named] using solid
  · rw [same,← List.cons_append,← List.append_assoc,List.getLast?_concat]
    intro c last
    cases last
    decide

theorem Spells.read (spelled : call.Spells text) (writable : call.Writable) : Call.read text = .ok call := by
  rw [Call.read,(spelled.firm writable).2,spelled.readTrimmed? writable]

theorem Spells.passes (spelled : call.Spells text) (writable : call.Writable) :
    Chain.Passes '.' .outside text.toList .outside := by
  obtain ⟨literals,spells,same⟩ := spelled.toList_eq
  have name : Chain.Passes '.' .outside call.method.toList .outside :=
    .plain fun c member => plain_of_isWordChar (writable.named.isWordChar_of_mem c member) rfl
  rw [same]
  exact name.append (.enclosed (passes_listText spells) (by decide))

theorem exists_spells (writable : call.Writable) : ∃ text, call.Spells text := by
  obtain ⟨literals,spells⟩ := exists_related fun v member => Value.exists_spells (writable.args v member)
  exact ⟨_,literals,spells,rfl⟩

end Call

/-! Spelled chains -/

namespace Chain
variable {calls : List Call} {texts : List String}

theorem segments_spelled (writable : ∀ call ∈ calls, call.Writable) (spelled : List.Forall₂ Call.Spells calls texts) :
    segments (".".intercalate texts) = .ok texts := by
  refine segments_intercalate fun text member => ?_
  obtain ⟨call,isCall,spells⟩ := exists_of_mem_right spelled member
  obtain ⟨nonempty,trimmed⟩ := spells.firm (writable call isCall)
  exact segments_of_passes (spells.passes (writable call isCall)) trimmed nonempty

theorem mapM_read_spelled (writable : ∀ call ∈ calls, call.Writable) (spelled : List.Forall₂ Call.Spells calls texts) :
    texts.mapM Call.read = .ok calls := by
  induction spelled with
  | nil => rfl
  | cons head _ ih =>
    rw [List.mapM_cons,head.read (writable _ (by simp)),ih fun call member => writable call (by simp [member])]
    rfl

/-- Every chain of writable calls has a spelling, and each of its spellings is cut into the spellings of the calls and
read back as the calls. -/
theorem read_spelled (some : calls ≠ []) (writable : ∀ call ∈ calls, call.Writable) :
    (∃ texts, List.Forall₂ Call.Spells calls texts) ∧
    ∀ texts, List.Forall₂ Call.Spells calls texts →
      segments (".".intercalate texts) = .ok texts ∧ texts.mapM Call.read = .ok calls ∧
        read (".".intercalate texts) = .ok calls := by
  refine ⟨exists_related fun call member => Call.exists_spells (writable call member),fun texts spelled => ?_⟩
  have cut := segments_spelled writable spelled
  have readBack := mapM_read_spelled writable spelled
  refine ⟨cut,readBack,?_⟩
  have nonempty : calls.isEmpty = false := by simpa using some
  rw [read,cut]
  simp [bind,Except.bind,readBack,nonempty]
  rfl

/-- Dots, commas, parentheses and the other quote inside strings, in two calls. -/
theorem read_spelled_dotted : read "set_meta('a.b, (c', -3).get_meta(\" it's null\", null)" =
    .ok [⟨"set_meta",[.string "a.b, (c",.int (-3)]⟩,⟨"get_meta",[.string " it's null",.null]⟩] := by
  have writable : ∀ call ∈ [(⟨"set_meta",[.string "a.b, (c",.int (-3)]⟩ : Call),⟨"get_meta",[.string " it's null",.null]⟩],
      call.Writable := by
    intro call member
    simp only [List.mem_cons,List.not_mem_nil,or_false] at member
    rcases member with rfl | rfl
    · exact ⟨⟨'s',"et_meta".toList,rfl,rfl,List.all_eq_true.mp rfl⟩,by simp [Value.Writable]⟩
    · exact ⟨⟨'g',"et_meta".toList,rfl,rfl,List.all_eq_true.mp rfl⟩,by simp [Value.Writable]⟩
  refine ((read_spelled (by simp) writable).2 ["set_meta('a.b, (c', -3)","get_meta(\" it's null\", null)"] ?_).2.2
  refine .cons ⟨["'a.b, (c'","-3"],.cons ?_ (.cons ?_ .nil),rfl⟩ (.cons ⟨["\" it's null\"","null"],?_,rfl⟩ .nil)
  · exact .string "a.b, (c" '\'' rfl (by decide)
  · exact .int (-3)
  · exact .cons (.string " it's null" '"' rfl (by decide)) (.cons .null .nil)

end Chain
end TreeConsole
