import RegionTree.Pattern.CharClass
import RegionTree.Pattern.Regex
set_option autoImplicit false

/-!
# Escapes

What a backslash and the characters after it stand for: a character, a class of characters, or a
test of the place.  `escape` goes the other way: it writes a text so that a pattern matches just
that text.
-/

namespace RegionTree.Pattern

/-- Whether a character has a meaning of its own in patterns. -/
def isMeta (c : Char) : Bool :=
  ['\\', '.', '+', '*', '?', '(', ')', '|', '[', ']', '\x7b', '\x7d', '^', '$', '#', '&', '-',
    '~'].contains c

/-- Writes the characters of a text so that each stands for itself in a pattern. -/
def escapeChars (cs : List Char) : List Char :=
  cs.flatMap fun c => if isMeta c then ['\\', c] else [c]

/-- Writes a text so that each of its characters stands for itself in a pattern. -/
def escape (s : String) : String := String.ofList (escapeChars s.toList)

/-- Whether a backslash before a character without a meaning of its own is allowed: ASCII other
than letters, digits and angles. -/
def isEscapable (c : Char) : Bool :=
  decide (c.toNat < 0x80) && !c.isAlphanum && c != '<' && c != '>'

/-- What stands at a place where one character or class may stand. -/
inductive Atom where
  /-- A character; `byte` if it was written as a byte. -/
  | literal (c : Char) (byte : Bool)
  /-- A class of characters. -/
  | set (s : IntervalSet)
  /-- A test of the place. -/
  | look (test : Look)
  deriving DecidableEq, Repr

/-- The test that a name in braces after `\b` stands for. -/
def edgeTest? (ascii : Bool) (name : List Char) : Option Look :=
  match String.ofList name with
  | "start" => some (.wordStart ascii)
  | "end" => some (.wordEnd ascii)
  | "start-half" => some (.wordStartHalf ascii)
  | "end-half" => some (.wordEndHalf ascii)
  | _ => none

/-- Whether a character may stand in the name of a test after `\b`. -/
def isEdgeNameChar (c : Char) : Bool := c.isAlpha || c == '-'

/-- A test with a name in braces, after the opening one. -/
def readEdgeName (flags : Flags) (cs : List Char) : Option (Atom × List Char) := do
  let (name, rest) := span flags.verbose isEdgeNameChar cs
  let rest ← expect '}' rest
  let test ← edgeTest? (!flags.unicode) name
  some (.look test, rest)

/-- The test after `\b`: a name in braces makes it one of four kinds.  Braces that do not open
with a letter or a hyphen are left to be read as a repetition. -/
def readEdge (flags : Flags) (cs : List Char) : Option (Atom × List Char) :=
  match cs with
  | '{' :: rest =>
    match skip flags.verbose rest with
    | [] => none
    | c :: more =>
      if isEdgeNameChar c then readEdgeName flags (c :: more)
      else some (.look (.wordEdge (!flags.unicode)), cs)
  | _ => some (.look (.wordEdge (!flags.unicode)), cs)

/-- A character given by its code point, after the letter of the escape. -/
def readCodePoint (flags : Flags) (count : Nat) (cs : List Char) : Option (Atom × List Char) :=
  (readHex flags.verbose count (skip flags.verbose cs)).map fun ((c, fixed), rest) =>
    (.literal c (fixed && count == 2), rest)

/-- A class with a name, after the letter of the escape. -/
def readProperty (flags : Flags) (negated : Bool) (cs : List Char) :
    Option (Atom × List Char) := do
  let (name, rest) ← readClassName flags.verbose (skip flags.verbose cs)
  let set ← flags.property? negated name
  some (.set set, rest)

/-- What a backslash and one character stand for.  Digits stand for nothing: there are no references
back to a group. -/
def escaped? (flags : Flags) (c : Char) : Option Atom :=
  let ascii := !flags.unicode
  if c.isDigit then none
  else if ['d', 's', 'w', 'D', 'S', 'W'].contains c then (flags.shorthand? c).map .set
  else if isMeta c || isEscapable c then some (.literal c false)
  else match c with
    | 'a' => some (.literal '\x07' false)
    | 'f' => some (.literal '\x0c' false)
    | 't' => some (.literal '\t' false)
    | 'n' => some (.literal '\n' false)
    | 'r' => some (.literal '\r' false)
    | 'v' => some (.literal '\x0b' false)
    | 'A' => some (.look .textStart)
    | 'z' => some (.look .textEnd)
    | 'B' => some (.look (.noWordEdge ascii))
    | '<' => some (.look (.wordStart ascii))
    | '>' => some (.look (.wordEnd ascii))
    | _ => none

/-- What an escape stands for, after its backslash. -/
def readEscape (flags : Flags) : List Char → Option (Atom × List Char)
  | [] => none
  | c :: rest =>
    if c == 'x' then readCodePoint flags 2 rest
    else if c == 'u' then readCodePoint flags 4 rest
    else if c == 'U' then readCodePoint flags 8 rest
    else if c == 'p' || c == 'P' then readProperty flags (c == 'P') rest
    else if c == 'b' then readEdge flags rest
    else (escaped? flags c).map fun atom => (atom, rest)

end RegionTree.Pattern
