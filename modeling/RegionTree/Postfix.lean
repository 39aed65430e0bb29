import RegionTree.Node
set_option autoImplicit false

/-!
# Postfix lists of nodes

A forest is written as a list in which every node comes after its descendants and says how many
records they make up.  A subtree that several lists share is stored once, with positions relative
to its start, and referred to by its index.
-/

namespace RegionTree

/-- What a record stands for. -/
inductive Referent where
  | node (id : NodeId)
  /-- The stored subtree of this index. -/
  | reused (index : Nat)
  deriving DecidableEq, Repr, Inhabited

/-- A node or a stored subtree in a postfix list. -/
structure Record where
  kind : Referent
  start : Nat
  stop : Nat
  /-- How many records its descendants make up. -/
  size : Nat
  deriving DecidableEq, Repr, Inhabited

namespace Record

/-- A node without descendants. -/
def leaf (id : NodeId) (start stop : Nat) : Record := ⟨.node id, start, stop, 0⟩

/-- A reference to a stored subtree. -/
def reused (index start stop : Nat) : Record := ⟨.reused index, start, stop, 0⟩

/-- The node, if the record is one. -/
def node? (r : Record) : Option NodeId :=
  match r.kind with
  | .node id => some id
  | .reused _ => none

/-- The number of bytes it spans. -/
def length (r : Record) : Nat := r.stop - r.start

end Record

/-- A subtree stored apart, with positions relative to its start. -/
structure Subtree where
  length : Nat
  records : List Record
  deriving DecidableEq, Repr, Inhabited

/-- A postfix list and the subtrees it refers to. -/
structure PostfixList where
  records : List Record
  reused : List Subtree
  deriving DecidableEq, Repr, Inhabited

namespace Postfix

/-- The indices of the records below `stop` that are not nested in others, in front of those
found; each is found from the one after it by skipping its descendants. -/
def rootsFrom (records : Array Record) : Nat → Nat → List Nat → List Nat
  | 0, _, found => found
  | _, 0, found => found
  | fuel + 1, last + 1, found =>
    rootsFrom records fuel (last - ((records[last]?).map Record.size).getD 0) (last :: found)

/-- The indices of the records that are not nested in others, in order. -/
def roots (records : Array Record) : List Nat :=
  rootsFrom records records.size records.size []

/-- The indices of the direct children of a record, in order. -/
def children (records : Array Record) (parent : Nat) : List Nat :=
  let start := parent - ((records[parent]?).map Record.size).getD 0
  (roots (records.extract start parent)).map (start + ·)

end Postfix

end RegionTree
