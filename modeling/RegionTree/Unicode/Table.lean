import RegionTree.IntervalSet
set_option autoImplicit false

/-!
# Tables of characters

A table writes a set of characters as intervals of code points in hexadecimal, both ends included,
separated by blanks and line ends: `41-5A AA` holds the upper-case ASCII letters and `ª`.
-/

namespace RegionTree.Unicode

/-- Code points are below this number. -/
def codePointBound : Nat := 0x110000

/-- The value of a hexadecimal digit in upper case. -/
def hexValue (c : Char) : Nat :=
  if c.isDigit then c.toNat - '0'.toNat else c.toNat - 'A'.toNat + 10

/-- A hexadecimal number. -/
def hexNumber (digits : List Char) : Nat :=
  digits.foldl (fun n c => 16 * n + hexValue c) 0

/-- One entry of a table: a code point, or the first and last of an interval. -/
def decodeEntry (entry : List Char) : Interval :=
  let first := entry.takeWhile (· != '-')
  match entry.drop first.length with
  | [] => .single (hexNumber first)
  | _ :: last => ⟨hexNumber first, hexNumber last + 1⟩

/-- The words of a text, the first of which has begun with the characters of `word` in reverse. -/
def wordsFrom (word : List Char) : List Char → List (List Char)
  | [] => if word.isEmpty then [] else [word.reverse]
  | c :: rest =>
    if c == ' ' || c == '\n' then
      if word.isEmpty then wordsFrom [] rest else word.reverse :: wordsFrom [] rest
    else wordsFrom (c :: word) rest

/-- The intervals that a table lists. -/
def entries (table : String) : List Interval := (wordsFrom [] table.toList).map decodeEntry

/-- The set that a table describes. -/
def decode (table : String) : IntervalSet := .ofList (entries table)

end RegionTree.Unicode
