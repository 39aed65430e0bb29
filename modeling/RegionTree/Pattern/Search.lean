import RegionTree.Pattern.Program
import RegionTree.Unicode.Class
set_option autoImplicit false

/-!
# Running programs

A program runs over the characters after a position with all its threads side by side.  A thread is
a step that waits for a character, together with the positions recorded on the way there; threads
are kept in order of preference.  At each position `explore` follows the steps that read nothing,
in order, and enters no step twice: a thread that comes to a step entered before has lost to a
preferred one with the same future.  When a thread accepts, those after it are dropped.

So the answer of `matchFrom` is the match preferred by the order of the branches, and the time of a
run is bounded by the number of steps times the number of characters.
-/

namespace RegionTree.Pattern

/-- The characters next to a position, if there are any. -/
structure Surroundings where
  before : Option Char
  after : Option Char
  deriving DecidableEq, Repr

/-- Whether a character belongs to words. -/
def isWordChar (ascii : Bool) (c : Char) : Bool :=
  if ascii then c.isAlphanum || c == '_' else Unicode.isWord c

/-- Whether there is a character and it belongs to words. -/
def isWordAt (ascii : Bool) (c : Option Char) : Bool :=
  c.any (isWordChar ascii)

/-- Whether a test holds at a place. -/
def Look.holds (test : Look) (place : Surroundings) : Bool :=
  let before := place.before
  let after := place.after
  match test with
  | .textStart => before.isNone
  | .textEnd => after.isNone
  | .lineStart => before.isNone || before == some '\n'
  | .lineEnd => after.isNone || after == some '\n'
  | .lineStartCrlf =>
    before.isNone || before == some '\n' || before == some '\r' && after != some '\n'
  | .lineEndCrlf =>
    after.isNone || after == some '\r' || after == some '\n' && before != some '\r'
  | .wordEdge ascii => isWordAt ascii before != isWordAt ascii after
  | .noWordEdge ascii => isWordAt ascii before == isWordAt ascii after
  | .wordStart ascii => !isWordAt ascii before && isWordAt ascii after
  | .wordEnd ascii => isWordAt ascii before && !isWordAt ascii after
  | .wordStartHalf ascii => !isWordAt ascii before
  | .wordEndHalf ascii => !isWordAt ascii after

/-- Recorded positions, the latest first: a slot and a position. -/
abbrev Marks := List (Nat × Nat)

/-- A thread that is to enter a step. -/
structure Arrival where
  step : Nat
  marks : Marks
  deriving Repr

/-- A thread that waits for a character of a set. -/
structure Thread where
  set : IntervalSet
  next : Nat
  marks : Marks
  deriving Repr

/-- What is left of the threads at a position: those that wait for a character, and the records of
the first that accepted. -/
structure Frontier where
  waiting : List Thread
  accepted : Option Marks
  deriving Repr

/-- Follows arrivals, in order, to the steps that wait for a character.  `entered` has a bit for
each step entered at this position, and `waiting` the threads found so far, in reverse. -/
def explore (steps : Array Step) (place : Surroundings) (pos : Nat) :
    Nat → Nat → List Thread → List Arrival → Frontier
  | 0, _, waiting, _ => ⟨waiting.reverse, none⟩
  | _, _, waiting, [] => ⟨waiting.reverse, none⟩
  | fuel + 1, entered, waiting, arrival :: rest =>
    if entered.testBit arrival.step then explore steps place pos fuel entered waiting rest
    else
      let entered := entered ||| (1 <<< arrival.step)
      match steps[arrival.step]? with
      | none => explore steps place pos fuel entered waiting rest
      | some (.chars set next) =>
        explore steps place pos fuel entered (⟨set, next, arrival.marks⟩ :: waiting) rest
      | some (.look test next) =>
        if test.holds place then
          explore steps place pos fuel entered waiting (⟨next, arrival.marks⟩ :: rest)
        else explore steps place pos fuel entered waiting rest
      | some (.mark slot next) =>
        explore steps place pos fuel entered waiting
          (⟨next, (slot, pos) :: arrival.marks⟩ :: rest)
      | some (.branch first second) =>
        explore steps place pos fuel entered waiting
          (⟨first, arrival.marks⟩ :: ⟨second, arrival.marks⟩ :: rest)
      | some .accept => ⟨waiting.reverse, some arrival.marks⟩

/-- Follows arrivals from a place where no step has been entered.  Every round drops an arrival,
and a step entered adds at most two, so the fuel suffices. -/
def frontier (p : Program) (place : Surroundings) (pos : Nat) (arrivals : List Arrival) :
    Frontier :=
  explore p.steps place pos (arrivals.length + 2 * p.steps.size + 1) 0 [] arrivals

/-- The threads that go on after reading a character. -/
def advance (c : Char) (waiting : List Thread) : List Arrival :=
  waiting.filterMap fun t => if t.set.contains c.toNat then some ⟨t.next, t.marks⟩ else none

/-- A match: the position where it ends and the positions recorded in it. -/
structure Found where
  stop : Nat
  marks : Marks
  deriving Repr, DecidableEq

/-- Runs arrivals over the characters after a position; `best` is the match found so far. -/
def run (p : Program) (before : Option Char) (pos : Nat) (arrivals : List Arrival)
    (best : Option Found) : List Char → Option Found
  | [] =>
    match (frontier p ⟨before, none⟩ pos arrivals).accepted with
    | some marks => some ⟨pos, marks⟩
    | none => best
  | c :: rest =>
    let f := frontier p ⟨before, some c⟩ pos arrivals
    let best := match f.accepted with
      | some marks => some ⟨pos, marks⟩
      | none => best
    match advance c f.waiting with
    | [] => best
    | arrivals => run p (some c) (pos + c.utf8Size) arrivals best rest

/-- The preferred match that starts at a position, given the character before it and those after
it. -/
def Program.matchFrom (p : Program) (before : Option Char) (pos : Nat) (after : List Char) :
    Option Found :=
  run p before pos [⟨p.start, []⟩] none after

/-- Whether a match starts at a position that is reached with the given arrivals, or later. -/
def occursFrom (p : Program) (before : Option Char) (arrivals : List Arrival) :
    List Char → Bool
  | [] => (frontier p ⟨before, none⟩ 0 (arrivals ++ [⟨p.start, []⟩])).accepted.isSome
  | c :: rest =>
    let f := frontier p ⟨before, some c⟩ 0 (arrivals ++ [⟨p.start, []⟩])
    f.accepted.isSome || occursFrom p (some c) (advance c f.waiting) rest

/-- Whether a match starts anywhere in a text. -/
def Program.occursIn (p : Program) (text : List Char) : Bool :=
  occursFrom p none [] text

end RegionTree.Pattern
