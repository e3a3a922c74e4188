import TreeConsole.Number.Digits

/-! Strings in JSON.
A string is written between double quotes. Quotes, backslashes and the characters below U+0020 are escaped,
five of those by a letter and the others by four lower-case hexadecimal digits; all else stands for itself.
-/
namespace TreeConsole.Json

def hexDigits (n : Nat) : List Char :=
  let ds := Nat.toDigits 16 n
  List.replicate (4 - ds.length) '0' ++ ds

def escape (c : Char) : List Char :=
  match c with
  | '"' => ['\\','"']
  | '\\' => ['\\','\\']
  | '\n' => ['\\','n']
  | '\r' => ['\\','r']
  | '\t' => ['\\','t']
  | '\x08' => ['\\','b']
  | '\x0c' => ['\\','f']
  | _ => if c.toNat < 0x20 then '\\' :: 'u' :: hexDigits c.toNat else [c]

def quote (s : String) : String := String.ofList ('"' :: s.toList.flatMap escape ++ ['"'])

end TreeConsole.Json
