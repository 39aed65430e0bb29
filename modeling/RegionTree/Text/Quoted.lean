import RegionTree.Unicode.Class
set_option autoImplicit false

/-!
# Quoted texts

A text between double quotes, in which quotes, backslashes, line ends, tabs and NUL are escaped
with a backslash, and every character that does not show or joins the one before it is written by
its code point in hexadecimal.
-/

namespace RegionTree.Text

/-- A number in hexadecimal, in lower case and without leading zeros. -/
def hexText (n : Nat) : List Char := Nat.toDigits 16 n

/-- One character of a quoted text. -/
def quoteChar (c : Char) : List Char :=
  match c with
  | '"' => ['\\', '"']
  | '\\' => ['\\', '\\']
  | '\n' => ['\\', 'n']
  | '\r' => ['\\', 'r']
  | '\t' => ['\\', 't']
  | '\x00' => ['\\', '0']
  | c =>
    if Unicode.isPlain c then [c] else ['\\', 'u', '\x7b'] ++ hexText c.toNat ++ ['\x7d']

/-- A text in quotes. -/
def quote (s : String) : String :=
  String.ofList ('"' :: (s.toList.flatMap quoteChar ++ ['"']))

end RegionTree.Text
