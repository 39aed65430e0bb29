import RegionTree.Node
import RegionTree.SymbolTable
set_option autoImplicit false

/-!
# Grammar states

What matching depends on besides the text: the stack of open regions and the values of the context
variables.  The bottom of the stack is the root scope, which is never closed.

Every state belongs to a grammar.  `Constants` carries the number that tells grammars apart, so
states of two grammars are never equal, even if the grammars are built from one definition.
-/

namespace RegionTree

/-- The number of a rule of a grammar. -/
abbrev RuleId := Nat

/-- The number of a scope of a grammar: the root, or the inside of a region. -/
abbrev ScopeId := Nat

/-- The root scope. -/
def rootScope : ScopeId := 0

/-- The constants of a grammar, and the number of the grammar. -/
structure Constants where
  grammar : Nat
  values : Bindings
  deriving DecidableEq, Repr, Inhabited

/-- An open region: its node and the scope inside. -/
structure Frame where
  node : Option NodeId
  scope : ScopeId
  deriving DecidableEq, Repr, Inhabited

/-- The state of a grammar. -/
structure State where
  constants : Constants
  context : Bindings
  /-- The open regions, the innermost first, without the root. -/
  regions : List Frame
  deriving DecidableEq, Repr, Inhabited

namespace State

/-- The bottom of every stack. -/
def rootFrame : Frame := ⟨none, rootScope⟩

/-- A state at the root. -/
def initial (constants : Constants) (context : Bindings) : State := ⟨constants, context, []⟩

/-- The innermost open region, or the root. -/
def top (s : State) : Frame := s.regions.headD rootFrame

/-- The number of open regions. -/
def depth (s : State) : Nat := s.regions.length

/-- The stack, the root first. -/
def frames (s : State) : List Frame := rootFrame :: s.regions.reverse

/-- The state with a region opened. -/
def push (s : State) (frame : Frame) : State := { s with regions := frame :: s.regions }

/-- The state with the innermost region closed; the root stays. -/
def pop (s : State) : State := { s with regions := s.regions.tail }

/-- The value of a context variable, or else of the constant of the same name. -/
def lookup (s : State) (symbol : Symbol) : Option String :=
  (s.context.get? symbol).or (s.constants.values.get? symbol)

@[simp] theorem pop_push (s : State) (frame : Frame) : (s.push frame).pop = s := rfl

@[simp] theorem top_push (s : State) (frame : Frame) : (s.push frame).top = frame := rfl

@[simp] theorem depth_push (s : State) (frame : Frame) :
    (s.push frame).depth = s.depth + 1 := rfl

end State

end RegionTree
