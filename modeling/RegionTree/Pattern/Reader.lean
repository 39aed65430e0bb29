import RegionTree.Pattern.Bracket
set_option autoImplicit false

/-!
# Reading patterns

`read` turns the notation of a pattern into a regular expression.  It goes through the characters
once, with the groups that are open around the current place on a stack: a parenthesis opens or
closes a group, a bar starts the next branch of the innermost one, and anything else adds to or
repeats the last part of the current branch.

A pattern is refused if it is malformed (`Fault.malformed`; which fault it was is not told apart),
if it is nested deeper than `depthLimit`, or if laying out its repetitions would take more than
`sizeLimit` steps (`Fault.tooLarge`).
-/

namespace RegionTree.Pattern

/-- Why a pattern is refused. -/
inductive Fault where
  /-- It does not follow the notation. -/
  | malformed
  /-- Its repetitions are too many. -/
  | tooLarge
  deriving DecidableEq, Repr

/-- How deep groups, repetitions, sequences, choices and classes may be nested. -/
def depthLimit : Nat := 250

/-- How many steps the repetitions of a pattern may take up. -/
def sizeLimit : Nat := 300000

/-- A part of a branch: its meaning, how deep its notation is nested, and whether a repetition may
follow it.  Flag groups are parts that mean nothing and cannot be repeated. -/
structure Part where
  regex : Regex
  depth : Nat
  repeatable : Bool
  deriving Repr

/-- A group that is being read.  Branches and parts are held in reverse. -/
structure OpenGroup where
  /-- The index of a group that records its span. -/
  index : Option Nat
  /-- The flags in force around the group. -/
  outerFlags : Flags
  /-- The finished branches. -/
  branches : List Part
  /-- The parts of the current branch. -/
  parts : List Part
  deriving Repr

namespace OpenGroup

/-- Several parts as one; more than one are one level deeper. -/
def combine (make : List Regex → Regex) (reversed : List Part) : Part :=
  match reversed with
  | [] => ⟨.empty, 0, true⟩
  | [part] => { part with repeatable := true }
  | parts =>
    ⟨make (parts.reverse.map Part.regex), parts.foldl (fun d p => max d p.depth) 0 + 1, true⟩

/-- The current branch as one part. -/
def branch (g : OpenGroup) : Part := combine Regex.seqAll g.parts

/-- The group with its current branch finished and an empty one begun. -/
def nextBranch (g : OpenGroup) : OpenGroup :=
  { g with branches := g.branch :: g.branches, parts := [] }

/-- The choice among all branches. -/
def choice (g : OpenGroup) : Part := combine Regex.altAll (g.branch :: g.branches)

/-- The finished group as a part of the group around it. -/
def close (g : OpenGroup) : Part :=
  let inner := g.choice
  let regex := match g.index with
    | some index => .group index inner.regex
    | none => inner.regex
  ⟨regex, inner.depth + 1, true⟩

/-- The group with another part in its current branch. -/
def push (g : OpenGroup) (part : Part) : OpenGroup :=
  { g with parts := part :: g.parts }

end OpenGroup

/-- What the reader knows at some place of a pattern. -/
structure Progress where
  flags : Flags
  /-- The index of the next group that records its span. -/
  nextIndex : Nat
  /-- The names of groups so far. -/
  names : List (List Char)
  /-- Whether some repetition was too large; it is left out, and reading goes on. -/
  tooLarge : Bool
  current : OpenGroup
  outer : List OpenGroup
  deriving Repr

namespace Progress

/-- The start of a pattern. -/
def start (flags : Flags) : Progress :=
  ⟨flags, 1, [], false, ⟨none, flags, [], []⟩, []⟩

/-- Adds a part to the current branch. -/
def push (p : Progress) (part : Part) : Progress :=
  { p with current := p.current.push part }

/-- Opens a group under some flags. -/
def openGroup (p : Progress) (index : Option Nat) (flags : Flags) : Progress :=
  { p with
    flags := flags
    current := ⟨index, p.flags, [], []⟩
    outer := p.current :: p.outer }

/-- Opens a group that records its span. -/
def openRecorded (p : Progress) : Progress :=
  { p.openGroup (some p.nextIndex) p.flags with nextIndex := p.nextIndex + 1 }

/-- Opens a group that records its span and has a name of its own. -/
def openNamed (p : Progress) (name : List Char) : Option Progress :=
  if p.names.contains name then none
  else some { p.openRecorded with names := name :: p.names }

/-- Closes the innermost group. -/
def closeGroup (p : Progress) : Option Progress :=
  match p.outer with
  | [] => none
  | around :: outer =>
    some { p with
      flags := p.current.outerFlags
      current := around.push p.current.close
      outer := outer }

/-- Repeats the last part of the current branch. -/
def repeatLast (p : Progress) (least : Nat) (most : Option Nat) (greedy : Bool) :
    Option Progress :=
  match p.current.parts with
  | [] => none
  | part :: parts =>
    if part.repeatable then
      let greedy := greedy != p.flags.swapGreed
      let fits := decide ((part.regex.size + 1) * max least (most.getD 1) ≤ sizeLimit)
      let regex := if fits then part.regex.repeated least most greedy else .empty
      some { p with
        tooLarge := p.tooLarge || !fits
        current := { p.current with parts := ⟨regex, part.depth + 1, true⟩ :: parts } }
    else none

end Progress

/-- Opens a group that has a name, after the angle that opens the name. -/
def readNamed (p : Progress) (cs : List Char) : Option (Progress × List Char) := do
  let (name, rest) ← readGroupName cs
  let p ← p.openNamed name
  some (p, rest)

/-- Reads what follows the letters of a flag group, or of a group that is not recorded. -/
def readFlagsEnd (p : Progress) (letters : List Char) : List Char → Option (Progress × List Char)
  | ':' :: rest => (p.flags.change? letters).map fun flags => (p.openGroup none flags, rest)
  | ')' :: rest =>
    if letters.isEmpty then none
    else (p.flags.change? letters).map fun flags =>
      ({ p.push ⟨.empty, 0, false⟩ with flags := flags }, rest)
  | _ => none

/-- Reads a flag group, or a group that is not recorded, after its question mark. -/
def readFlags (p : Progress) (cs : List Char) : Option (Progress × List Char) :=
  let (letters, rest) := span false (fun c => c != ':' && c != ')') cs
  readFlagsEnd p letters rest

/-- Reads the name of a group, after its angle.  Groups that look behind are refused. -/
def readAngled (p : Progress) : List Char → Option (Progress × List Char)
  | '=' :: _ => none
  | '!' :: _ => none
  | cs => readNamed p cs

/-- Reads a group of some kind or a flag group, after its question mark.  Groups that look ahead are
refused. -/
def readSpecialGroup (p : Progress) : List Char → Option (Progress × List Char)
  | '=' :: _ => none
  | '!' :: _ => none
  | '<' :: rest => readAngled p rest
  | 'P' :: rest => (expect '<' rest).bind (readNamed p)
  | cs => readFlags p cs

/-- Reads an opened parenthesis. -/
def readGroup (p : Progress) : List Char → Option (Progress × List Char)
  | '?' :: rest => readSpecialGroup p rest
  | cs => some (p.openRecorded, cs)

/-- Reads a repetition sign other than a brace, and the question mark that makes it lazy. -/
def readRepetition (p : Progress) (least : Nat) (most : Option Nat) (cs : List Char) :
    Option (Progress × List Char) :=
  match cs with
  | '?' :: rest => (p.repeatLast least most false).map fun p => (p, rest)
  | cs => (p.repeatLast least most true).map fun p => (p, cs)

/-- The meaning of an atom outside of brackets.  A byte beyond ASCII is no character. -/
def Atom.regex? (flags : Flags) : Atom → Option Regex
  | .literal c byte =>
    if !flags.unicode && byte && decide (0x80 ≤ c.toNat) then none
    else some (.chars (flags.literal c))
  | .set s => some (.chars s)
  | .look test => some (.look test)

/-- Reads a class in brackets, after its opening bracket. -/
def readSet (p : Progress) (cs : List Char) : Option (Progress × List Char) :=
  (readClass p.flags cs).map fun (set, rest) => (p.push ⟨.chars set.set, set.depth, true⟩, rest)

/-- Reads a repetition by its counts, after its opening brace. -/
def readBraces (p : Progress) (cs : List Char) : Option (Progress × List Char) := do
  let (counts, rest) ← readCounts p.flags.verbose cs
  readRepetition p counts.1 counts.2 (skip p.flags.verbose rest)

/-- The test of a caret. -/
def Flags.caret (flags : Flags) : Look :=
  if flags.multiLine then if flags.crlf then .lineStartCrlf else .lineStart else .textStart

/-- The test of a dollar sign. -/
def Flags.dollar (flags : Flags) : Look :=
  if flags.multiLine then if flags.crlf then .lineEndCrlf else .lineEnd else .textEnd

/-- The progress with a test in the current branch. -/
def Progress.pushLook (p : Progress) (test : Look) : Progress := p.push ⟨.look test, 0, true⟩

/-- Reads an atom that stands for itself or is an escape. -/
def readSingle (p : Progress) (cs : List Char) : Option (Progress × List Char) := do
  let (atom, rest) ← readAtom p.flags cs
  let regex ← atom.regex? p.flags
  some (p.push ⟨regex, 0, true⟩, rest)

/-- Reads one step of a pattern, at a character that is not left out. -/
def readStep (p : Progress) : List Char → Option (Progress × List Char)
  | [] => none
  | '(' :: rest => readGroup p (skip p.flags.verbose rest)
  | ')' :: rest => p.closeGroup.map fun p => (p, rest)
  | '|' :: rest => some ({ p with current := p.current.nextBranch }, rest)
  | '[' :: rest => readSet p rest
  | '?' :: rest => readRepetition p 0 (some 1) rest
  | '*' :: rest => readRepetition p 0 none rest
  | '+' :: rest => readRepetition p 1 none rest
  | '{' :: rest => readBraces p rest
  | '.' :: rest => p.flags.dot?.map fun set => (p.push ⟨.chars set, 0, true⟩, rest)
  | '^' :: rest => some (p.pushLook p.flags.caret, rest)
  | '$' :: rest => some (p.pushLook p.flags.dollar, rest)
  | cs => readSingle p cs

/-- Reads a pattern to its end. -/
def readFrom : Nat → Progress → List Char → Option Progress
  | 0, _, _ => none
  | fuel + 1, p, cs =>
    match skip p.flags.verbose cs with
    | [] => some p
    | cs =>
      match readStep p cs with
      | none => none
      | some (p, rest) => readFrom fuel p rest

/-- The regular expression that a pattern means, under the given flags. -/
def read (flags : Flags) (cs : List Char) : Except Fault Regex :=
  match readFrom (cs.length + 1) (.start flags) cs with
  | none => .error .malformed
  | some p =>
    let whole := p.current.choice
    if !p.outer.isEmpty || decide (depthLimit < whole.depth) then .error .malformed
    else if p.tooLarge || decide (sizeLimit < whole.regex.size) then .error .tooLarge
    else .ok whole.regex

end RegionTree.Pattern
