set_option autoImplicit false

/-!
# Flags of a pattern

A pattern is read under seven flags.  A flag group such as `(?i-s)` or `(?i-s:…)` switches some of
them on and, after a hyphen, others off.
-/

namespace RegionTree.Pattern

/-- The flags in force at some place of a pattern. -/
structure Flags where
  /-- `i`: letters match without regard to case. -/
  ignoreCase : Bool := false
  /-- `m`: `^` and `$` also match at line ends. -/
  multiLine : Bool := false
  /-- `s`: the dot also matches line ends. -/
  dotAll : Bool := false
  /-- `U`: repetition is lazy, and greedy with a question mark. -/
  swapGreed : Bool := false
  /-- `u`: classes, dots and cases are those of all characters, and not of ASCII alone. -/
  unicode : Bool := true
  /-- `R`: lines may also end with a carriage return. -/
  crlf : Bool := false
  /-- `x`: blanks and comments in the pattern are left out. -/
  verbose : Bool := false
  deriving DecidableEq, Repr, Inhabited

namespace Flags

/-- The flags with the one of the given letter switched, none for an unknown letter. -/
def set? (flags : Flags) (letter : Char) (on : Bool) : Option Flags :=
  match letter with
  | 'i' => some { flags with ignoreCase := on }
  | 'm' => some { flags with multiLine := on }
  | 's' => some { flags with dotAll := on }
  | 'U' => some { flags with swapGreed := on }
  | 'u' => some { flags with unicode := on }
  | 'R' => some { flags with crlf := on }
  | 'x' => some { flags with verbose := on }
  | _ => none

/-- Applies the letters of a flag group; `on` turns false at the hyphen. -/
def applyLetters (flags : Flags) (on : Bool) : List Char → Option Flags
  | [] => some flags
  | c :: rest =>
    if c == '-' then flags.applyLetters false rest
    else match flags.set? c on with
      | some flags => flags.applyLetters on rest
      | none => none

/-- Whether no letter, nor the hyphen, occurs twice and the hyphen is not last. -/
def wellFormed (letters : List Char) : Bool :=
  decide letters.Nodup && letters.getLast? != some '-'

/-- The flags after a flag group with the given letters, none if the group is malformed. -/
def change? (flags : Flags) (letters : List Char) : Option Flags :=
  if wellFormed letters then flags.applyLetters true letters else none

end Flags

end RegionTree.Pattern
