set_option autoImplicit false

/-!
# Nodes

The nodes of syntax trees go by numbers.  A grammar has a table of its nodes, in which the first
three are always the same: an error, the mark of an unfinished region, and the document itself.
-/

namespace RegionTree

/-- The number of a node. -/
structure NodeId where
  index : Nat
  deriving DecidableEq, Repr, Inhabited

namespace NodeId

/-- A character that no rule matched. -/
def error : NodeId := ⟨0⟩

/-- The mark before the end of a region that is closed by the end of the text. -/
def incomplete : NodeId := ⟨1⟩

/-- The root of every tree. -/
def document : NodeId := ⟨2⟩

/-- The first number of a node that a grammar declares. -/
def firstDeclared : Nat := 3

/-- Whether the node is one of those in every grammar. -/
def isReserved (id : NodeId) : Bool := decide (id.index < firstDeclared)

/-- The name of a node that is in every grammar. -/
def reservedName? (id : NodeId) : Option String :=
  if id = error then some "⚠"
  else if id = incomplete then some "Incomplete"
  else if id = document then some "Document"
  else none

/-- A number sign and the number. -/
def text (id : NodeId) : String := "#" ++ toString id.index

end NodeId

/-- The role a node was declared in. -/
inductive Role where
  /-- It spans a match. -/
  | full
  /-- It spans a region, from the opening match on. -/
  | opening
  /-- It ends with a closing match. -/
  | closing
  deriving DecidableEq, Repr, Inhabited

/-- A node of a grammar. -/
structure Node where
  name : String
  autocomplete : Option String
  role : Role
  /-- The entry of the repository in which it was first declared. -/
  source : Option String
  /-- The language embedded in the region that declared it. -/
  embedded : Option String
  deriving DecidableEq, Repr, Inhabited

/-- The nodes of a grammar, by their numbers. -/
structure NodeTable where
  nodes : List Node
  deriving DecidableEq, Repr, Inhabited

namespace NodeTable

/-- A node with a name and a role. -/
def plainNode (name : String) (role : Role) : Node := ⟨name, none, role, none, none⟩

/-- The table with the nodes of every grammar. -/
def initial : NodeTable :=
  ⟨[plainNode "⚠" .full, plainNode "Incomplete" .full, plainNode "Document" .full]⟩

/-- The number of nodes. -/
def size (t : NodeTable) : Nat := t.nodes.length

/-- The node of a given number. -/
def get? (t : NodeTable) (id : NodeId) : Option Node := t.nodes[id.index]?

/-- The number of the node with a given name. -/
def id? (t : NodeTable) (name : String) : Option NodeId :=
  (t.nodes.findIdx? fun node => node.name == name).map NodeId.mk

/-- The name of a node, a question mark for a number outside of the table. -/
def name (t : NodeTable) (id : NodeId) : String :=
  ((t.get? id).map Node.name).getD "?"

/-- The number of the node with a given name; `node` is added if there is none. -/
def declare (t : NodeTable) (node : Node) : NodeId × NodeTable :=
  match t.id? node.name with
  | some id => (id, t)
  | none => (⟨t.size⟩, ⟨t.nodes ++ [node]⟩)

/-- Sets what a node is completed to. -/
def setAutocomplete (t : NodeTable) (id : NodeId) (tag : String) : NodeTable :=
  ⟨t.nodes.modify id.index fun node => { node with autocomplete := some tag }⟩

end NodeTable

end RegionTree
