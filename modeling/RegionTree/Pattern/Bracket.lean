import RegionTree.Pattern.Escape
set_option autoImplicit false

/-!
# Classes in square brackets

A class in brackets is a union of items (characters, intervals, named classes and further classes
in brackets), or several such unions joined by `&&` (intersection), `--` (difference) and `~~`
(symmetric difference), which bind equally and to the left.

The reader keeps the classes that are open around the current one on a stack.  It also measures
how deep the notation is nested, because patterns are limited in that.
-/

namespace RegionTree.Pattern

/-- An operation on two classes. -/
inductive SetOp where
  | intersection
  | difference
  | symmetricDifference
  deriving DecidableEq, Repr

/-- A set of characters and how deep its notation is nested. -/
structure NestedSet where
  set : IntervalSet
  depth : Nat
  deriving DecidableEq, Repr

/-- A class that is being read: its operand before the pending operation, if any, and the items of
the current operand. -/
structure OpenClass where
  negated : Bool
  pending : Option (SetOp × NestedSet)
  items : List NestedSet
  deriving DecidableEq, Repr

namespace OpenClass

/-- The class with another item. -/
def push (level : OpenClass) (item : NestedSet) : OpenClass :=
  { level with items := item :: level.items }

/-- The union of the items of the current operand. -/
def operand (level : OpenClass) : NestedSet :=
  match level.items with
  | [item] => item
  | items =>
    ⟨.unionAll (items.map NestedSet.set),
      if items.isEmpty then 0 else items.foldl (fun d item => max d item.depth) 0 + 1⟩

/-- The current operand joined with the one before the pending operation. -/
def value (flags : Flags) (level : OpenClass) : NestedSet :=
  match level.pending with
  | none => level.operand
  | some (op, left) =>
    let right := level.operand
    let a := flags.fold left.set
    let b := flags.fold right.set
    let set := match op with
      | .intersection => a.inter flags.bound b
      | .difference => a.diff flags.bound b
      | .symmetricDifference => a.symmDiff flags.bound b
    ⟨set, max left.depth right.depth + 1⟩

/-- The class after an operation sign. -/
def operate (flags : Flags) (level : OpenClass) (op : SetOp) : OpenClass :=
  ⟨level.negated, some (op, level.value flags), []⟩

/-- The finished class. -/
def close? (flags : Flags) (level : OpenClass) : Option NestedSet :=
  let value := level.value flags
  (flags.classOf? level.negated value.set).map fun set => ⟨set, value.depth + 1⟩

end OpenClass

/-- One character as a set, before folding. -/
def NestedSet.char (c : Char) : NestedSet := ⟨⟨[.single c.toNat]⟩, 0⟩

/-- Whether a class is negated: a caret says so. -/
def readCaret (verbose : Bool) : List Char → Bool × List Char
  | '^' :: rest => (true, skip verbose rest)
  | cs => (false, cs)

/-- A closing bracket that comes first in a class stands for itself. -/
def readFirstBracket (verbose : Bool) (level : OpenClass) : List Char → OpenClass × List Char
  | ']' :: rest =>
    if level.items.isEmpty then (level.push (.char ']'), skip verbose rest) else (level, ']' :: rest)
  | cs => (level, cs)

/-- Opens a class, after its bracket.  Hyphens that come first stand for themselves. -/
def openClass (verbose : Bool) (cs : List Char) : OpenClass × List Char :=
  let (negated, cs) := readCaret verbose (skip verbose cs)
  let (hyphens, cs) := span verbose (· == '-') cs
  readFirstBracket verbose ⟨negated, none, hyphens.map .char⟩ cs

/-- The name of an ASCII class, up to its colon and bracket. -/
def readAsciiName (flags : Flags) (negated : Bool) (cs : List Char) :
    Option (Option NestedSet × List Char) := do
  let (name, rest) ← readUntil false ':' cs
  let rest ← expect ']' rest
  let set ← asciiClass? name
  some ((flags.classOf? negated set).map fun set => ⟨set, 0⟩, rest)

/-- A named ASCII class, after its opening bracket; nothing if the characters have another form. -/
def readAsciiClass (flags : Flags) : List Char → Option (Option NestedSet × List Char)
  | ':' :: '^' :: rest => readAsciiName flags true rest
  | ':' :: rest => readAsciiName flags false rest
  | _ => none

/-- One end of an interval, or an item of its own. -/
def readAtom (flags : Flags) : List Char → Option (Atom × List Char)
  | [] => none
  | '\\' :: rest => readEscape flags rest
  | c :: rest => some (.literal c false, rest)

/-- The character of an atom as a member of a class; without `u` it has to be ASCII. -/
def classChar? (flags : Flags) : Atom → Option Char
  | .literal c _ => if flags.unicode || decide (c.toNat < 0x80) then some c else none
  | _ => none

/-- An atom as an item of a class; tests are no items. -/
def classItem? (flags : Flags) : Atom → Option NestedSet
  | .set s => some ⟨s, 0⟩
  | atom => (classChar? flags atom).map NestedSet.char

/-- What is left after a comment sign and blanks, if there is such a sign. -/
def pastSign : List Char → List Char
  | '#' :: rest => rest.dropWhile Unicode.isSpace
  | cs => cs

/-- The character after a hyphen as far as it decides whether the hyphen makes an interval.  In
verbose mode blanks and one comment sign are looked past. -/
def afterHyphen (verbose : Bool) (cs : List Char) : Option Char :=
  if verbose then (pastSign (cs.dropWhile Unicode.isSpace)).head?.or cs.head? else cs.head?

/-- Whether the hyphen before some characters makes no interval: another one comes next, or the end
of the class. -/
def standsAlone (verbose : Bool) (cs : List Char) : Bool :=
  afterHyphen verbose cs == some ']' || afterHyphen verbose cs == some '-'

/-- The interval from a character to the one that comes next. -/
def readInterval (flags : Flags) (first : Atom) (cs : List Char) :
    Option (NestedSet × List Char) := do
  let (last, rest) ← readAtom flags cs
  let low ← classChar? flags first
  let high ← classChar? flags last
  if low ≤ high then some (⟨⟨[charInterval low high]⟩, 0⟩, rest) else none

/-- An item of a class, after its first atom. -/
def readItemFrom (flags : Flags) (first : Atom) : List Char → Option (NestedSet × List Char)
  | [] => none
  | '-' :: rest =>
    if standsAlone flags.verbose rest then
      (classItem? flags first).map fun item => (item, '-' :: rest)
    else readInterval flags first (skip flags.verbose rest)
  | cs => (classItem? flags first).map fun item => (item, cs)

/-- A character, a named class or an interval. -/
def readItem (flags : Flags) (cs : List Char) : Option (NestedSet × List Char) := do
  let (first, rest) ← readAtom flags cs
  readItemFrom flags first (skip flags.verbose rest)

/-- What has been read of a class. -/
inductive ClassProgress where
  /-- The outermost open class has been closed. -/
  | closed (set : NestedSet)
  /-- A class is open, and the others around it. -/
  | within (level : OpenClass) (outer : List OpenClass)
  deriving DecidableEq, Repr

/-- The operation that a sign means when it is written twice. -/
def operation? : Char → Option SetOp
  | '&' => some .intersection
  | '-' => some .difference
  | '~' => some .symmetricDifference
  | _ => none

/-- Reads an operation sign; nothing if the characters have another form. -/
def readOperation : List Char → Option (SetOp × List Char)
  | c :: d :: rest => if c == d then (operation? c).map fun op => (op, rest) else none
  | _ => none

/-- Closes a class, and reads on in the one around it. -/
def closeClass (flags : Flags) (level : OpenClass) : List OpenClass → Option ClassProgress
  | [] => (level.close? flags).map .closed
  | around :: outer => (level.close? flags).map fun set => .within (around.push set) outer

/-- Reads an item that is a class in brackets, after its opening bracket. -/
def readInnerClass (flags : Flags) (level : OpenClass) (outer : List OpenClass) (cs : List Char) :
    Option (ClassProgress × List Char) :=
  match readAsciiClass flags cs with
  | some (item, rest) => item.map fun item => (.within (level.push item) outer, rest)
  | none =>
    let (inner, rest) := openClass flags.verbose cs
    some (.within inner (level :: outer), rest)

/-- Reads an operation sign or an item. -/
def readOperand (flags : Flags) (level : OpenClass) (outer : List OpenClass) (cs : List Char) :
    Option (ClassProgress × List Char) :=
  match readOperation cs with
  | some (op, rest) => some (.within (level.operate flags op) outer, rest)
  | none => (readItem flags cs).map fun (item, rest) => (.within (level.push item) outer, rest)

/-- Reads one step of a class, at a character that is not left out.  `outer` holds the classes open
around `level`. -/
def readClassStep (flags : Flags) (level : OpenClass) (outer : List OpenClass) :
    List Char → Option (ClassProgress × List Char)
  | '[' :: rest => readInnerClass flags level outer rest
  | ']' :: rest => (closeClass flags level outer).map fun progress => (progress, rest)
  | cs => readOperand flags level outer cs

/-- Reads on in a class until the outermost open class is closed. -/
def readClassFrom (flags : Flags) :
    Nat → OpenClass → List OpenClass → List Char → Option (NestedSet × List Char)
  | 0, _, _, _ => none
  | fuel + 1, level, outer, cs =>
    match readClassStep flags level outer (skip flags.verbose cs) with
    | none => none
    | some (.closed set, rest) => some (set, rest)
    | some (.within level outer, rest) => readClassFrom flags fuel level outer rest

/-- A class in square brackets, after its opening bracket. -/
def readClass (flags : Flags) (cs : List Char) : Option (NestedSet × List Char) :=
  let (level, rest) := openClass flags.verbose cs
  readClassFrom flags (rest.length + 1) level [] rest

end RegionTree.Pattern
