import RegionTree.Pattern.Flags
import RegionTree.Pattern.Scan
set_option autoImplicit false

/-!
# Classes under flags

Which characters a class stands for depends on two flags.  Without `i` it is the set as written,
with `i` that set closed under case folding; negation comes after folding.  Without `u` a class
may hold ASCII characters only, and folding concerns ASCII letters only.
-/

namespace RegionTree.Pattern

/-- The interval between two characters, both included. -/
def charInterval (first last : Char) : Interval := ⟨first.toNat, last.toNat + 1⟩

/-- A set given by its first and last characters. -/
def charIntervals (l : List (Char × Char)) : IntervalSet :=
  .ofList (l.map fun (first, last) => charInterval first last)

/-- The ASCII classes that go by a name in square brackets. -/
def asciiClass? (name : List Char) : Option IntervalSet :=
  match String.ofList name with
  | "alnum" => some (charIntervals [('0', '9'), ('A', 'Z'), ('a', 'z')])
  | "alpha" => some (charIntervals [('A', 'Z'), ('a', 'z')])
  | "ascii" => some (charIntervals [('\x00', '\x7f')])
  | "blank" => some (charIntervals [('\t', '\t'), (' ', ' ')])
  | "cntrl" => some (charIntervals [('\x00', '\x1f'), ('\x7f', '\x7f')])
  | "digit" => some (charIntervals [('0', '9')])
  | "graph" => some (charIntervals [('!', '~')])
  | "lower" => some (charIntervals [('a', 'z')])
  | "print" => some (charIntervals [(' ', '~')])
  | "punct" => some (charIntervals [('!', '/'), (':', '@'), ('[', '\x60'), ('\x7b', '~')])
  | "space" => some (charIntervals [('\t', '\r'), (' ', ' ')])
  | "upper" => some (charIntervals [('A', 'Z')])
  | "word" => some (charIntervals [('0', '9'), ('A', 'Z'), ('_', '_'), ('a', 'z')])
  | "xdigit" => some (charIntervals [('0', '9'), ('A', 'F'), ('a', 'f')])
  | _ => none

/-- The ASCII letters of a set in both cases, added to the set. -/
def closeAscii (s : IntervalSet) : IntervalSet :=
  let letters := (List.range 26).flatMap fun k =>
    let upper := 'A'.toNat + k
    let lower := 'a'.toNat + k
    if s.contains upper || s.contains lower then [upper, lower] else []
  .ofList (s.intervals ++ letters.map Interval.single)

namespace Flags

/-- The numbers a class ranges over: code points, or bytes without `u`. -/
def bound (flags : Flags) : Nat :=
  if flags.unicode then Unicode.codePointBound else 0x100

/-- A set closed under case folding if letters match without regard to case. -/
def fold (flags : Flags) (s : IntervalSet) : IntervalSet :=
  if flags.ignoreCase then
    if flags.unicode then Unicode.CaseFolding.close s else closeAscii s
  else s

/-- A set, or its complement if negated. -/
def negateIf (flags : Flags) (negated : Bool) (s : IntervalSet) : IntervalSet :=
  if negated then s.complement flags.bound else s

/-- A set as a class; without `u` it may hold ASCII characters only. -/
def allow? (flags : Flags) (s : IntervalSet) : Option IntervalSet :=
  if flags.unicode || s.intervals.all fun i => decide (i.stop ≤ 0x80) then some s else none

/-- The class written as a set, folded and negated. -/
def classOf? (flags : Flags) (negated : Bool) (s : IntervalSet) : Option IntervalSet :=
  flags.allow? (flags.negateIf negated (flags.fold s))

/-- The class of a shorthand `\d`, `\s` or `\w`; these are closed under case folding. -/
def shorthand? (flags : Flags) (letter : Char) : Option IntervalSet :=
  let negated := letter.isUpper
  let set :=
    match letter.toLower with
    | 'd' => if flags.unicode then Unicode.digit else charIntervals [('0', '9')]
    | 's' => if flags.unicode then Unicode.space else charIntervals [('\t', '\r'), (' ', ' ')]
    | _ =>
      if flags.unicode then Unicode.word
      else charIntervals [('0', '9'), ('A', 'Z'), ('_', '_'), ('a', 'z')]
  flags.allow? (flags.negateIf negated set)

/-- The class `\p` of a name, not to be had without `u`. -/
def property? (flags : Flags) (negated : Bool) (name : ClassName) : Option IntervalSet :=
  if flags.unicode then name.set?.bind (flags.classOf? negated) else none

/-- The characters a literal character matches. -/
def literal (flags : Flags) (c : Char) : IntervalSet :=
  let set : IntervalSet := ⟨[.single c.toNat]⟩
  if flags.ignoreCase then
    if flags.unicode then Unicode.CaseFolding.close set
    else if c.isAlpha then closeAscii set else set
  else set

/-- The characters a dot matches, not to be had without `u`. -/
def dot? (flags : Flags) : Option IntervalSet :=
  if !flags.unicode then none
  else
    let ends : List Char := if flags.dotAll then [] else if flags.crlf then ['\n', '\r'] else ['\n']
    some ((IntervalSet.ofList (ends.map fun c => .single c.toNat)).complement
      Unicode.codePointBound)

end Flags

end RegionTree.Pattern
