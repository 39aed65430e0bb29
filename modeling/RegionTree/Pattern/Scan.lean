import RegionTree.Unicode.Class
set_option autoImplicit false

/-!
# Scanning the parts of a pattern

Small readers over the characters of a pattern: blanks and comments (left out in verbose mode),
numbers, escapes by code point, and the names of groups, boundaries and properties.  A reader
answers what it read and the rest, or nothing if the notation is malformed; which fault it was is
not told apart.
-/

namespace RegionTree.Pattern

/-- What is left after leading blanks and comments; a comment runs from `#` to the line's end. -/
def skipBlanks (inComment : Bool) : List Char → List Char
  | [] => []
  | c :: rest =>
    if inComment then skipBlanks (c != '\n') rest
    else if Unicode.isSpace c then skipBlanks false rest
    else if c == '#' then skipBlanks true rest
    else c :: rest

/-- What is left after leading blanks and comments in verbose mode. -/
def skip (verbose : Bool) (cs : List Char) : List Char :=
  if verbose then skipBlanks false cs else cs

/-- The characters up to the first that fails a test, blanks and comments between them left out in
verbose mode, and the rest; `fuel` bounds their number. -/
def spanWith (verbose : Bool) (p : Char → Bool) : Nat → List Char → List Char × List Char
  | 0, cs => ([], cs)
  | _, [] => ([], [])
  | fuel + 1, c :: rest =>
    if p c then
      let (taken, rest) := spanWith verbose p fuel (skip verbose rest)
      (c :: taken, rest)
    else ([], c :: rest)

/-- The characters up to the first that fails a test, blanks and comments between them left out in
verbose mode, and the rest. -/
def span (verbose : Bool) (p : Char → Bool) (cs : List Char) : List Char × List Char :=
  spanWith verbose p cs.length cs

/-- The value of a decimal number. -/
def decimalValue (digits : List Char) : Nat :=
  digits.foldl (fun n c => 10 * n + (c.toNat - '0'.toNat)) 0

/-- The value of a digit of base sixteen in either case. -/
def hexDigit? (c : Char) : Option Nat :=
  if '0' ≤ c ∧ c ≤ '9' then some (c.toNat - '0'.toNat)
  else if 'a' ≤ c ∧ c ≤ 'f' then some (c.toNat - 'a'.toNat + 10)
  else if 'A' ≤ c ∧ c ≤ 'F' then some (c.toNat - 'A'.toNat + 10)
  else none

/-- Counts of a repetition are below this number. -/
def countBound : Nat := Nat.pow 2 32

/-- A decimal number with blanks around it. -/
def readDecimal (verbose : Bool) (cs : List Char) : Option (Nat × List Char) :=
  let (digits, rest) := span verbose Char.isDigit (cs.dropWhile Unicode.isSpace)
  let (_, rest) := span verbose Unicode.isSpace rest
  let value := decimalValue digits
  if digits.isEmpty || decide (countBound ≤ value) then none else some (value, rest)

/-- The rest after a character that has to come next. -/
def expect (c : Char) : List Char → Option (List Char)
  | d :: rest => if c == d then some rest else none
  | [] => none

/-- The characters up to one that has to come, and the rest after that. -/
def readUntil (verbose : Bool) (last : Char) (cs : List Char) : Option (List Char × List Char) :=
  let (taken, rest) := span verbose (· != last) cs
  (expect last rest).map fun rest => (taken, rest)

/-- The greater count of a repetition, after its comma; there need be none. -/
def readMost (verbose : Bool) (least : Nat) :
    List Char → Option ((Nat × Option Nat) × List Char)
  | '}' :: rest => some ((least, none), rest)
  | cs => do
    let (most, rest) ← readDecimal verbose cs
    let rest ← expect '}' rest
    if least ≤ most then some ((least, some most), rest) else none

/-- The counts of a repetition, after the first number. -/
def readCountsFrom (verbose : Bool) (least : Nat) :
    List Char → Option ((Nat × Option Nat) × List Char)
  | ',' :: rest => readMost verbose least (skip verbose rest)
  | cs => do
    let rest ← expect '}' cs
    some ((least, some least), rest)

/-- The counts of a repetition, after its opening brace: `n}`, `n,}` or `n,m}`. -/
def readCounts (verbose : Bool) (cs : List Char) : Option ((Nat × Option Nat) × List Char) := do
  let (least, rest) ← readDecimal verbose (skip verbose cs)
  readCountsFrom verbose least rest

/-- A character given by its code point; surrogates are no characters. -/
def charOfCode? (n : Nat) : Option Char :=
  if n.isValidChar then some (Char.ofNat n) else none

/-- A code point of exactly `count` digits. -/
def readFixedHex (verbose : Bool) : Nat → Nat → List Char → Option (Char × List Char)
  | 0, value, cs => (charOfCode? value).map fun c => (c, cs)
  | _ + 1, _, [] => none
  | count + 1, value, c :: rest =>
    match hexDigit? c with
    | some d => readFixedHex verbose count (16 * value + d) (skip verbose rest)
    | none => none

/-- A code point between braces, after the opening one. -/
def readBracedHex (verbose : Bool) (cs : List Char) : Option (Char × List Char) := do
  let (digits, rest) := span verbose (fun c => (hexDigit? c).isSome) (skip verbose cs)
  let rest ← expect '}' rest
  if digits.isEmpty then none
  else
    let c ← charOfCode? (digits.foldl (fun n d => 16 * n + (hexDigit? d).getD 0) 0)
    some (c, skip verbose rest)

/-- A code point after `\x`, `\u` or `\U`, in braces or with a fixed number of digits; the answer
also says whether the number of digits was fixed. -/
def readHex (verbose : Bool) (count : Nat) : List Char → Option ((Char × Bool) × List Char)
  | [] => none
  | '{' :: rest => (readBracedHex verbose rest).map fun (c, rest) => ((c, false), rest)
  | cs => (readFixedHex verbose count 0 cs).map fun (c, rest) => ((c, true), rest)

/-- Whether a character may stand in the name of a group. -/
def isNameChar (first : Bool) (c : Char) : Bool :=
  if first then c == '_' || Unicode.isAlphabetic c
  else c == '_' || c == '.' || c == '[' || c == ']' || Unicode.isAlphanumeric c

/-- The name of a group, up to its closing angle. -/
def readGroupName (cs : List Char) : Option (List Char × List Char) := do
  let (name, rest) ← readUntil false '>' cs
  match name with
  | [] => none
  | c :: more =>
    if isNameChar true c && more.all (isNameChar false) then some (name, rest) else none

/-- What a class of the form `\p` names. -/
inductive ClassName where
  /-- A bare name. -/
  | named (name : List Char)
  /-- A property and its value. -/
  | valued (name value : List Char)
  deriving DecidableEq, Repr

/-- The characters before and after the first occurrence of a separator. -/
def splitAt? (separator : List Char) : List Char → Option (List Char × List Char)
  | [] => if separator.isEmpty then some ([], []) else none
  | c :: rest =>
    if separator.isPrefixOf (c :: rest) then some ([], (c :: rest).drop separator.length)
    else (splitAt? separator rest).map fun (before, after) => (c :: before, after)

/-- Reads `name`, `name!=value`, `name:value` or `name=value`. -/
def ClassName.ofChars (cs : List Char) : ClassName :=
  match splitAt? ['!', '='] cs with
  | some (name, value) => .valued name value
  | none =>
    match splitAt? [':'] cs with
    | some (name, value) => .valued name value
    | none =>
      match splitAt? ['='] cs with
      | some (name, value) => .valued name value
      | none => .named cs

/-- The class that a name stands for. -/
def ClassName.set? : ClassName → Option IntervalSet
  | .named name => Unicode.namedClass? name
  | .valued name value => Unicode.valueClass? name value

/-- The name after `\p` or `\P`: a single letter, or more between braces. -/
def readClassName (verbose : Bool) : List Char → Option (ClassName × List Char)
  | [] => none
  | '{' :: rest => (readUntil verbose '}' (skip verbose rest)).map fun (name, rest) =>
    (.ofChars name, rest)
  | c :: rest => if c == '\\' then none else some (.named [c], skip verbose rest)

end RegionTree.Pattern
