import RegionTree.Grammar.Template
import RegionTree.Pattern
set_option autoImplicit false

/-!
# Setters

A setter gives a context variable a new value or removes it, if its condition holds.
-/

namespace RegionTree

/-- What a text is tested for. -/
inductive Test where
  | nonEmpty
  | equals (text : String)
  | matchesPattern (program : Pattern.Program)
  deriving Repr

/-- Whether a text passes. -/
def Test.passes (test : Test) (subject : List Char) : Bool :=
  match test with
  | .nonEmpty => !subject.isEmpty
  | .equals text => subject == text.toList
  | .matchesPattern program => program.occursIn subject

/-- A condition on a template, or on the matched text if there is none. -/
structure Condition where
  subject : Option Template
  test : Test
  deriving Repr

/-- Whether a condition holds in a state and for the groups of a match. -/
def Condition.holds (c : Condition) (state : State) (groups : Groups) : Bool :=
  c.test.passes <|
    match c.subject with
    | some template => template.expand state groups
    | none => (groups.head?.join).getD []

/-- A change of a context variable. -/
structure Setter where
  name : Symbol
  /-- The new value; without one the variable is removed. -/
  value : Option Template
  condition : Option Condition
  /-- Whether it is applied before the pattern is tried. -/
  immediate : Bool
  deriving Repr

namespace Setter

/-- Whether the condition of a setter holds, if it has one. -/
def fires (s : Setter) (state : State) (groups : Groups) : Bool :=
  s.condition.all fun condition => condition.holds state groups

/-- The state after a setter. -/
def apply (s : Setter) (groups : Groups) (state : State) : State :=
  if s.fires state groups then
    match s.value with
    | some template =>
      let value := String.ofList (template.expand state groups)
      { state with context := state.context.set s.name value }
    | none => { state with context := state.context.remove s.name }
  else state

/-- The state after some setters in order. -/
def applyAll (setters : List Setter) (groups : Groups) (state : State) : State :=
  setters.foldl (fun state s => s.apply groups state) state

end Setter

end RegionTree
