import TreeConsole.Program
import Mathlib.Data.List.Basic

/-! Lines of standard input.
A text that has lines with line ends after them is read back as these lines. The bytes of a line end stand nowhere in
the encoding of another character, so the bytes can be cut into lines before they are decoded.
-/
namespace TreeConsole
variable {line text : String} {lines : List String} {bytes rest : List UInt8} {byte : UInt8}

/-! Bytes of texts -/

theorem toList_loop (bytes : ByteArray) (place : Nat) (read : List UInt8) :
    ByteArray.toList.loop bytes place read = read.reverse ++ bytes.data.toList.drop place := by
  fun_induction ByteArray.toList.loop bytes place read with
  | case1 place read more ih =>
    have inside : place < bytes.data.toList.length := by simpa using more
    rw [ih,List.drop_eq_getElem_cons inside,List.reverse_cons,List.append_assoc]
    simp [ByteArray.get!,more]
  | case2 place read done =>
    rw [List.drop_eq_nil_of_le (by simpa using done),List.append_nil]

theorem toList_data (bytes : ByteArray) : bytes.toList = bytes.data.toList := toList_loop bytes 0 []

theorem toList_toUTF8 (text : String) : text.toUTF8.toList = text.toList.flatMap String.utf8EncodeChar := by
  rw [toList_data,String.toUTF8_eq_toByteArray,← String.utf8Encode_toList]
  exact List.toList_data_toByteArray

theorem toUTF8_ne_nil (some : text ≠ "") : text.toUTF8.toList ≠ [] := by
  obtain ⟨c,rest,letters⟩ := List.exists_cons_of_ne_nil fun nothing => some (String.toList_eq_nil_iff.mp nothing)
  rw [toList_toUTF8,letters,List.flatMap_cons]
  exact List.append_ne_nil_of_left_ne_nil String.utf8EncodeChar_ne_nil _

theorem fromUTF8?_toUTF8 (text : String) : String.fromUTF8? ⟨text.toUTF8.toList.toArray⟩ = some text := by
  rw [toList_data,Array.toArray_toList]
  exact dif_pos text.isValidUTF8

/-- A byte below 128 encodes the character of this number: all bytes of a longer encoding are at least 128. -/
theorem toNat_of_mem_utf8EncodeChar {c : Char} (member : byte ∈ String.utf8EncodeChar c) (low : byte.toNat < 128) :
    c.toNat = byte.toNat := by
  change c.val.toNat = byte.toNat
  simp only [String.utf8EncodeChar] at member
  split_ifs at member
  all_goals
    simp only [List.mem_cons,List.not_mem_nil,or_false,← UInt8.toNat_inj,UInt8.toNat_ofNat'] at member
    omega

theorem not_mem_toUTF8 {c : Char} (absent : c ∉ text.toList) (low : byte.toNat < 128) (encodes : c.toNat = byte.toNat) :
    byte ∉ text.toUTF8.toList := by
  intro member
  rw [toList_toUTF8] at member
  obtain ⟨d,inside,encoded⟩ := List.mem_flatMap.mp member
  have same : d = c := Char.toNat_inj.mp ((toNat_of_mem_utf8EncodeChar encoded low).trans encodes.symm)
  exact absent (same ▸ inside)

/-! Lines in a text -/

/-- A line that can be typed and is not skipped. -/
structure Typable (line : String) : Prop where
  seen : Console.isBlankLine line = false
  fed : '\n' ∉ line.toList
  returned : '\r' ∉ line.toList

/-- A text of lines. Each ends with a line feed, maybe after a carriage return, but the last may go without an end. -/
inductive Typed : List String → String → Prop
  | done : Typed [] ""
  | unended {line : String} : Typed [line] line
  | ended {line ending text : String} {lines : List String} (ends : ending = "\n" ∨ ending = "\r\n")
      (more : Typed lines text) : Typed (line :: lines) (line ++ ending ++ text)

theorem Typable.ne_empty (typable : Typable line) : line ≠ "" := by
  rintro rfl
  cases typable.seen

/-- Bytes in which no line ends. -/
def Unbroken (bytes : List UInt8) : Prop := 10 ∉ bytes ∧ 13 ∉ bytes

theorem Typable.unbroken (typable : Typable line) : Unbroken line.toUTF8.toList :=
  ⟨not_mem_toUTF8 typable.fed (by decide) rfl,not_mem_toUTF8 typable.returned (by decide) rfl⟩

theorem unbroken_append : Unbroken (bytes ++ rest) ↔ Unbroken bytes ∧ Unbroken rest := by
  simp only [Unbroken,List.mem_append,not_or]
  exact and_and_and_comm

theorem lineBytes_cons (unbroken : Unbroken (byte :: bytes)) (rest : List UInt8) :
    lineBytes (byte :: rest) = match lineBytes rest with
      | [] => [[byte]]
      | line :: more => (byte :: line) :: more := by
  obtain ⟨feed,back⟩ := unbroken
  exact (if_neg (List.ne_of_not_mem_cons feed).symm).trans
    (if_neg fun both => List.ne_of_not_mem_cons back both.1.symm)

theorem lineBytes_append {first : List UInt8} {more : List (List UInt8)} (unbroken : Unbroken bytes)
    (behind : lineBytes rest = first :: more) : lineBytes (bytes ++ rest) = (bytes ++ first) :: more := by
  induction bytes with
  | nil => exact behind
  | cons byte bytes ih =>
    have later : Unbroken bytes := (unbroken_append.mp (List.singleton_append ▸ unbroken)).2
    rw [List.cons_append,lineBytes_cons unbroken,ih later]
    rfl

theorem lineBytes_ended {ending : String} (ends : ending = "\n" ∨ ending = "\r\n") (unbroken : Unbroken bytes) :
    lineBytes (bytes ++ (ending.toUTF8.toList ++ rest)) = bytes :: lineBytes rest := by
  have behind : lineBytes (ending.toUTF8.toList ++ rest) = [] :: lineBytes rest := by
    rw [toList_toUTF8]
    rcases ends with rfl | rfl <;> rfl
  rw [lineBytes_append unbroken behind,List.append_nil]

theorem lineBytes_unended (some : bytes ≠ []) (unbroken : Unbroken bytes) : lineBytes bytes = [bytes] := by
  obtain rfl | ⟨before,last,rfl⟩ := List.eq_nil_or_concat bytes
  · exact absurd rfl some
  · rw [List.concat_eq_append] at unbroken ⊢
    obtain ⟨plain,ends⟩ := unbroken_append.mp unbroken
    exact lineBytes_append plain (lineBytes_cons ends [])

theorem Typed.lineBytes (typed : Typed lines text) (typable : ∀ line ∈ lines, Typable line) :
    TreeConsole.lineBytes text.toUTF8.toList = lines.map fun line => line.toUTF8.toList := by
  induction typed with
  | done =>
    rw [toList_toUTF8]
    rfl
  | unended =>
    have alone := typable _ List.mem_cons_self
    exact lineBytes_unended (toUTF8_ne_nil alone.ne_empty) alone.unbroken
  | @ended line ending text lines ends more ih =>
    have parts : (line ++ ending ++ text).toUTF8.toList =
        line.toUTF8.toList ++ (ending.toUTF8.toList ++ text.toUTF8.toList) := by
      simp only [toList_toUTF8,String.toList_append,List.flatMap_append,List.append_assoc]
    rw [parts,lineBytes_ended ends (typable line List.mem_cons_self).unbroken,
      ih fun other member => typable other (List.mem_cons_of_mem line member),List.map_cons]

theorem inputLines_typed (typed : Typed lines text) (typable : ∀ line ∈ lines, Typable line) :
    inputLines text.toUTF8 = lines.map some := by
  rw [inputLines,typed.lineBytes typable,List.map_map]
  exact List.map_congr_left fun line _ => fromUTF8?_toUTF8 line

end TreeConsole
