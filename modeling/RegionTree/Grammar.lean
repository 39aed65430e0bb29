import RegionTree.Grammar.Matcher
import RegionTree.Grammar.Setter
import RegionTree.Grammar.Token
set_option autoImplicit false

/-!
# Grammars

A grammar ready for matching: rules, scopes (the root and the inside of each region) with their
alternatives, nodes, symbols, and the capture functions that the host supplies.
-/

namespace RegionTree

/-- What a capture function says about a captured text. -/
inductive Verdict where
  /-- The capture makes no node. -/
  | keep
  /-- The match fails. -/
  | veto
  /-- The capture makes this node. -/
  | node (id : NodeId)
  deriving DecidableEq, Repr, Inhabited

/-- A function from the captured text and the state to a verdict. -/
abbrev CaptureFunction := String → State → Verdict

/-- What becomes of the text of a group. -/
inductive Capture where
  | node (id : NodeId)
  /-- The capture function of this number decides. -/
  | function (index : Nat)
  deriving DecidableEq, Repr, Inhabited

/-- A matcher that has to hold, or must not hold, beside a match. -/
structure Guard where
  matcher : Matcher
  negate : Bool
  deriving Repr

/-- A rule. -/
structure Rule where
  /-- Where it stands in the definition. -/
  path : String
  node : Option NodeId
  matcher : Matcher
  /-- Looked for in the text before the match, at whose start it has to end. -/
  lookbehind : Option Guard
  /-- Tested at the end of the match. -/
  lookahead : Option Guard
  captures : List (Nat × Capture)
  setters : List Setter
  /-- Whether a match consumes nothing and only changes the state. -/
  rematch : Bool
  deriving Repr

/-- What is tried at a place. -/
inductive Alternative where
  | rule (id : RuleId)
  /-- A region, entered by its opening rule. -/
  | region (id : ScopeId)
  deriving DecidableEq, Repr, Inhabited

/-- A scope: the root or the inside of a region. -/
structure Scope where
  name : String
  node : Option NodeId
  /-- The rule that opens the region. -/
  opening : Option RuleId
  /-- The rules that close the region, tried first. -/
  closings : List RuleId
  alternatives : List Alternative
  embedded : Option String
  deriving Repr, Inhabited

/-- Bounds on a step of matching. -/
structure Limits where
  /-- How many transitions without length are followed before a character is skipped. -/
  rematches : Nat := 16
  /-- How many regions may be open. -/
  depth : Nat := 512
  deriving DecidableEq, Repr, Inhabited

/-- A grammar. -/
structure Grammar where
  name : String
  rules : Array Rule
  scopes : Array Scope
  global : List Alternative
  /-- The node of a character that no rule matches. -/
  fallback : NodeId
  nodes : NodeTable
  symbols : SymbolTable
  constants : Constants
  initialContext : Bindings
  functions : List (String × CaptureFunction)
  limits : Limits

namespace Grammar

/-- The state at the start of a text. -/
def initialState (g : Grammar) : State := State.initial g.constants g.initialContext

/-- The verdict of a capture function; a number without a function keeps the capture. -/
def verdict (g : Grammar) (index : Nat) (text : List Char) (state : State) : Verdict :=
  match g.functions[index]? with
  | some (_, function) => function (String.ofList text) state
  | none => .keep

/-- The rules that close a region. -/
def closings (g : Grammar) (scope : ScopeId) : List RuleId :=
  ((g.scopes[scope]?).map Scope.closings).getD []

/-- The alternatives of a scope. -/
def alternatives (g : Grammar) (scope : ScopeId) : List Alternative :=
  ((g.scopes[scope]?).map Scope.alternatives).getD []

/-- The grammar in short. -/
def summary (g : Grammar) : String :=
  "Grammar \x7b name: " ++ Text.quote g.name ++ ", rules: " ++ toString g.rules.size
    ++ ", states: " ++ toString g.scopes.size ++ ", nodes: " ++ toString g.nodes.size ++ " \x7d"

end Grammar

end RegionTree
