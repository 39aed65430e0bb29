import RegionTree.Definition.Shape
import RegionTree.Definition.Binary
import RegionTree.Pattern
set_option autoImplicit false

/-!
# Errors in grammars

Why a grammar cannot be loaded or built, with the path of the item at fault.
-/

namespace RegionTree

/-- What is wrong with a pattern. -/
inductive PatternProblem where
  | fault (fault : Pattern.Fault)
  /-- Nothing is left of it. -/
  | empty
  /-- A word of a list mentions a context variable. -/
  | contextInWord
  deriving DecidableEq, Repr

/-- The words for a problem. -/
def PatternProblem.message : PatternProblem → String
  | .fault cause => cause.message
  | .empty => "empty pattern"
  | .contextInWord => "lookup words cannot reference context variables"

/-- Why a definition makes no grammar. -/
inductive BuildError where
  | pattern (path : String) (problem : PatternProblem)
  | unknownInclude (path name : String)
  | includeCycle (path name : String)
  | unknownVariable (path name : String)
  | undeclaredContext (path name : String)
  /-- A capture of a group that the pattern does not have; `last` is its last group. -/
  | captureIndex (path : String) (index last : Nat)
  /-- Captures beside something that has no groups. -/
  | captureWithoutGroups (path : String)
  | unknownFunction (path name : String)
  /-- A region where `what` has to be rules. -/
  | expectedRule (path what : String)
  /-- An opening that is not one rule. -/
  | ambiguousOpening (path : String)
  | emptyRules (path : String)
  deriving DecidableEq, Repr

/-- The text of an error. -/
def BuildError.message : BuildError → String
  | .pattern path cause => path ++ ": invalid pattern: " ++ cause.message
  | .unknownInclude path name => path ++ ": unknown include " ++ Json.backticked ("#" ++ name)
  | .includeCycle path name => path ++ ": include cycle through " ++ Json.backticked ("#" ++ name)
  | .unknownVariable path name => path ++ ": unknown variable " ++ Json.backticked name
  | .undeclaredContext path name =>
    path ++ ": context variable " ++ Json.backticked name ++ " is not declared"
  | .captureIndex path index last =>
    path ++ ": capture " ++ toString index ++ " is out of range, pattern has " ++ toString last
      ++ " groups"
  | .captureWithoutGroups path =>
    path ++ ": captures need a " ++ Json.backticked "match" ++ " pattern"
  | .unknownFunction path name =>
    path ++ ": capture function " ++ Json.backticked name ++ " is not registered"
  | .expectedRule path what => path ++ ": " ++ what ++ " must resolve to rules, found a region"
  | .ambiguousOpening path =>
    path ++ ": " ++ Json.backticked "begin" ++ " must resolve to exactly one rule"
  | .emptyRules path => path ++ ": empty rule list"

/-- Why a definition cannot be read. -/
inductive LoadError where
  | json (fault : Json.Fault)
  | binary (fault : Binary.Fault)
  | shape (error : ShapeError)
  deriving Repr

/-- The text of an error.  Faults of JSON itself are worded in general terms. -/
def LoadError.message : LoadError → String
  | .json (.misfit cause) => "JSON parse error: " ++ cause.message
  | .json .malformed => "JSON parse error: syntax error"
  | .json .incomplete => "JSON parse error: unexpected end"
  | .binary cause => "binary codec error: " ++ cause.message
  | .shape cause => cause.message

/-- The definition in a JSON text. -/
def Definition.ofJson (text : String) : Except LoadError Definition :=
  match Raw.Grammar.ofText text with
  | .error fault => .error (.json fault)
  | .ok raw =>
    match raw.define with
    | .error error => .error (.shape error)
    | .ok definition => .ok definition

/-- The definition in binary. -/
def Definition.ofBinary (bytes : Binary.Bytes) : Except LoadError Definition :=
  match Definition.decode bytes with
  | .error fault => .error (.binary fault)
  | .ok definition => .ok definition

end RegionTree
