import RegionTree.Pattern.Regex
set_option autoImplicit false

/-!
# Programs

A regular expression is laid out as numbered steps.  A step reads a character, tests the place,
records a position, or branches, with the preferred branch first.  `Regex.lay` lays out an
expression in front of the step that follows it, so every step but those of a loop leads to one
with a smaller number.
-/

namespace RegionTree.Pattern

/-- One step of a program. -/
inductive Step where
  /-- Reads one character of a set. -/
  | chars (set : IntervalSet) (next : Nat)
  /-- Goes on where a test holds. -/
  | look (test : Look) (next : Nat)
  /-- Records the current position in a slot. -/
  | mark (slot : Nat) (next : Nat)
  /-- Tries one branch, then the other. -/
  | branch (first second : Nat)
  /-- The end of a match. -/
  | accept
  deriving Repr, Inhabited, DecidableEq

/-- The steps of a program so far and the number of the step to start with. -/
structure Layout where
  steps : Array Step
  start : Nat
  deriving Repr, Inhabited

namespace Layout

/-- Adds a step and starts with it. -/
def add (l : Layout) (step : Step) : Layout :=
  ⟨l.steps.push step, l.steps.size⟩

/-- The layout that only accepts. -/
def accept : Layout := ⟨#[.accept], 0⟩

end Layout

/-- Adds the steps of an expression in front of the start of a layout. -/
def Regex.lay : Regex → Layout → Layout
  | .empty, l => l
  | .chars set, l => l.add (.chars set l.start)
  | .look test, l => l.add (.look test l.start)
  | .seq a b, l => a.lay (b.lay l)
  | .alt a b, l =>
    let second := b.lay l
    let first := a.lay ⟨second.steps, l.start⟩
    first.add (.branch first.start second.start)
  | .plus r greedy, l =>
    let loop := l.steps.size
    let body := r.lay (l.add .accept)
    let step := if greedy then Step.branch body.start l.start else .branch l.start body.start
    ⟨body.steps.setIfInBounds loop step, body.start⟩
  | .group i r, l =>
    let body := r.lay (l.add (.mark (2 * i + 1) l.start))
    body.add (.mark (2 * i) body.start)

/-- A program: its steps, the one to start with, and the number of groups. -/
structure Program where
  steps : Array Step
  start : Nat
  groups : Nat
  deriving Repr, Inhabited

/-- The program of an expression. -/
def Program.ofRegex (r : Regex) : Program :=
  let l := r.lay .accept
  ⟨l.steps, l.start, r.groupCount⟩

end RegionTree.Pattern
