set_option autoImplicit false

/-!
# Grammar definitions

A grammar as its author writes it, before includes are resolved and patterns are compiled.  The
root and the global list, the entries of the repository and the bodies of regions all hold items:
an include of a repository entry, a rule, or a region.
-/

namespace RegionTree

/-- What a rule matches. -/
inductive PatternSource where
  /-- A pattern. -/
  | regex (source : String)
  /-- A text as it is. -/
  | literal (text : String)
  /-- The longest of several words. -/
  | lookup (words : List String)
  deriving DecidableEq, Repr, Inhabited

/-- What becomes of the text of a group. -/
inductive CaptureSource where
  /-- It makes a node. -/
  | node (name : String)
  /-- A capture function decides. -/
  | function (name : String)
  deriving DecidableEq, Repr, Inhabited

/-- A pattern that has to hold, or must not hold, beside a match. -/
structure GuardSource where
  pattern : String
  negate : Bool
  deriving DecidableEq, Repr, Inhabited

/-- A guard is negated by an exclamation mark in front. -/
def GuardSource.ofString (source : String) : GuardSource :=
  match source.toList with
  | '!' :: rest => ⟨String.ofList rest, true⟩
  | _ => ⟨source, false⟩

/-- What the subject of a condition is tested for. -/
inductive TestSource where
  | nonEmpty
  | equals (text : String)
  | matchesPattern (pattern : String)
  deriving DecidableEq, Repr, Inhabited

/-- A condition on a template, or on the matched text if there is none. -/
structure ConditionSource where
  subject : Option String
  test : TestSource
  deriving DecidableEq, Repr, Inhabited

/-- A change of a context variable: its new value is a template, and without one the variable is
removed. -/
structure SetterSource where
  name : String
  value : Option String
  condition : Option ConditionSource
  /-- Whether it is applied before the pattern is tried. -/
  immediate : Bool
  deriving DecidableEq, Repr, Inhabited

/-- A rule. -/
structure RuleSource where
  node : Option String
  pattern : PatternSource
  captures : List (Nat × CaptureSource)
  lookbehind : Option GuardSource
  lookahead : Option GuardSource
  context : List SetterSource
  /-- Whether a match consumes nothing and only changes the state. -/
  rematch : Bool
  deriving DecidableEq, Repr, Inhabited

/-- One alternative of a list of items. -/
inductive Item where
  /-- The entry of the repository with this name. -/
  | reference (name : String)
  | rule (source : RuleSource)
  /-- A region from an opening to the first closing item, whose body is the list of alternatives
  inside. -/
  | region (node : Option String) (opening : Item) (closings : List Item) (body : List Item)
      (embedded : Option String)
  deriving Repr, Inhabited

mutual

/-- Items are equal when they are of one kind and their parts are equal. -/
def Item.decEq : (a b : Item) → Decidable (a = b)
  | .reference a, .reference b => decidable_of_iff (a = b) (by simp)
  | .rule a, .rule b => decidable_of_iff (a = b) (by simp)
  | .region n o c b e, .region n' o' c' b' e' =>
    have := Item.decEq o o'
    have := Item.decEqs c c'
    have := Item.decEqs b b'
    decidable_of_iff (n = n' ∧ o = o' ∧ c = c' ∧ b = b' ∧ e = e') (by simp)
  | .reference _, .rule _ => isFalse (by simp)
  | .reference _, .region .. => isFalse (by simp)
  | .rule _, .reference _ => isFalse (by simp)
  | .rule _, .region .. => isFalse (by simp)
  | .region .., .reference _ => isFalse (by simp)
  | .region .., .rule _ => isFalse (by simp)

/-- Lists of items are equal when they are so item by item. -/
def Item.decEqs : (a b : List Item) → Decidable (a = b)
  | [], [] => isTrue rfl
  | [], _ :: _ => isFalse (by simp)
  | _ :: _, [] => isFalse (by simp)
  | x :: xs, y :: ys =>
    have := Item.decEq x y
    have := Item.decEqs xs ys
    decidable_of_iff (x = y ∧ xs = ys) (by simp)

end

instance : DecidableEq Item := Item.decEq

/-- An entry of the repository. -/
inductive Entry where
  | item (item : Item)
  | list (items : List Item)
  deriving DecidableEq, Repr, Inhabited

/-- Properties of a node. -/
structure NodeSource where
  autocomplete : Option String
  deriving DecidableEq, Repr, Inhabited

/-- A grammar definition. -/
structure Definition where
  name : String
  ignoreCase : Bool
  /-- Constants of patterns and templates. -/
  constants : List (String × String)
  /-- Context variables and their first values. -/
  context : List (String × String)
  /-- The node of a character that no rule matches. -/
  fallback : Option String
  root : List Item
  /-- Alternatives in every state after its own. -/
  global : List Item
  repository : List (String × Entry)
  nodes : List (String × NodeSource)
  deriving DecidableEq, Repr, Inhabited

/-- The entry of the repository with a given name. -/
def Definition.entry? (d : Definition) (name : String) : Option Entry :=
  d.repository.lookup name

/-- The properties given for a node. -/
def Definition.node? (d : Definition) (name : String) : Option NodeSource :=
  d.nodes.lookup name

end RegionTree
