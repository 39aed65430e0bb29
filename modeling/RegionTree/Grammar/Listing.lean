import RegionTree.Grammar
set_option autoImplicit false

/-!
# Listings

A grammar as text for a reader: its nodes, its scopes with what is tried in each, and its rules.
-/

namespace RegionTree

/-- A number padded with blanks to three places. -/
def padNumber (n : Nat) : String :=
  let text := toString n
  text ++ String.ofList (List.replicate (3 - text.length) ' ')

/-- An alternative by its number. -/
def Alternative.text : Alternative → String
  | .rule id => "R" ++ toString id
  | .region id => "S" ++ toString id

/-- The role of a node. -/
def Role.text : Role → String
  | .full => ""
  | .opening => " (region)"
  | .closing => " (end)"

namespace Grammar

/-- A node in a listing, with its number. -/
def nodeLine (id : Nat) (node : Node) : String :=
  "N" ++ padNumber id ++ " " ++ node.name ++ node.role.text
    ++ (node.autocomplete.map fun tag => " autocomplete=" ++ tag).getD "" ++ "\n"

/-- An alternative in a listing. -/
def tryLine (alternative : Alternative) : String := "     try   " ++ alternative.text ++ "\n"

/-- A scope in a listing, with its number. -/
def scopeLines (g : Grammar) (id : Nat) (scope : Scope) : String :=
  "S" ++ padNumber id ++ " " ++ scope.name
    ++ (scope.node.map fun node => " => " ++ g.nodes.name node).getD ""
    ++ (scope.embedded.map fun embedded => " embedded=" ++ embedded).getD "" ++ "\n"
    ++ (scope.opening.map fun id => "     begin R" ++ toString id ++ "\n").getD ""
    ++ String.join (scope.closings.map fun id => "     end   R" ++ toString id ++ "\n")
    ++ String.join (scope.alternatives.map tryLine)

/-- A rule in a listing, with its number. -/
def ruleLine (g : Grammar) (id : Nat) (rule : Rule) : String :=
  "R" ++ padNumber id ++ " " ++ rule.path ++ " " ++ rule.matcher.source
    ++ (rule.node.map fun node => " => " ++ g.nodes.name node).getD ""
    ++ (if rule.rematch then " rematch" else "") ++ "\n"

/-- Lines for the elements of a list, with their numbers. -/
def numbered {α : Type} (line : Nat → α → String) (list : List α) : String :=
  String.join (list.mapIdx line)

/-- The listing of a grammar. -/
def listing (g : Grammar) : String :=
  "grammar " ++ g.name ++ "\n\n[nodes]\n" ++ numbered nodeLine g.nodes.nodes
    ++ "\n[states]\n" ++ numbered g.scopeLines g.scopes.toList
    ++ (if g.global.isEmpty then "" else "global\n" ++ String.join (g.global.map tryLine))
    ++ "\n[rules]\n" ++ numbered g.ruleLine g.rules.toList

end Grammar

end RegionTree
