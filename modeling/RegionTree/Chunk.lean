import RegionTree.Grammar.State
import RegionTree.Grammar.Token
import RegionTree.Postfix
set_option autoImplicit false

/-!
# Chunks

A chunk is a run of tokens with the state of the grammar before the first of them, if that is the
start of a step of matching.  Nodes open only at the start of a chunk and close only at its end.
Positions of tokens are relative to the chunk, so a chunk can be moved as a whole.

A chunk also knows how far the steps that made it looked (`reach`): an edit from there on leaves it
as it is.
-/

namespace RegionTree

/-- Positions relative to a chunk are below this number. -/
def offsetBound : Nat := Nat.pow 2 32

/-- A node in a chunk, with positions relative to it. -/
structure Leaf where
  node : NodeId
  start : Nat
  stop : Nat
  deriving DecidableEq, Repr, Inhabited

/-- A run of tokens. -/
structure Chunk where
  start : Nat
  length : Nat
  leaves : Array Leaf
  /-- Nodes that open at the start, the outermost first. -/
  opens : List NodeId
  /-- Nodes that close at the end, the innermost first. -/
  closes : List NodeId
  /-- The state before the first token, if a step of matching starts there. -/
  state : Option State
  /-- How far the steps looked, if further than the end. -/
  looked : Nat
  /-- The records of the chunk, once they have been made. -/
  subtree : Option Subtree
  deriving DecidableEq, Repr, Inhabited

namespace Chunk

/-- A chunk without tokens. -/
def empty (start : Nat) (state : Option State) : Chunk :=
  ⟨start, 0, #[], [], [], state, start, none⟩

/-- The end of a chunk. -/
def stop (c : Chunk) : Nat := c.start + c.length

/-- The end of the text on which the tokens of a chunk depend. -/
def reach (c : Chunk) : Nat := max c.looked c.stop

/-- The chunk, made by a step that looked up to a position. -/
def lookedTo (c : Chunk) (pos : Nat) : Chunk := { c with looked := max c.looked pos }

/-- The chunk and all it looked at moved by an offset. -/
def shift (c : Chunk) (offset : Int) : Chunk :=
  { c with start := shiftClamped c.start offset, looked := shiftClamped c.looked offset }

/-- The chunk extended up to a position. -/
def stretchTo (c : Chunk) (stop : Nat) : Chunk :=
  { c with length := max c.length (stop - c.start), subtree := none }

/-- The chunk with another token, given by its positions in the document. -/
def add (c : Chunk) (node : NodeId) (start stop : Nat) : Chunk :=
  let token : Leaf :=
    ⟨node, (start - c.start) % offsetBound, (stop - c.start) % offsetBound⟩
  { c with leaves := c.leaves.push token }.stretchTo stop

/-- The chunk with another node that opens at its start. -/
def withOpen (c : Chunk) (node : NodeId) : Chunk :=
  { c with opens := c.opens ++ [node], subtree := none }

/-- The chunk with another node that closes at its end. -/
def withClose (c : Chunk) (node : NodeId) : Chunk :=
  { c with closes := c.closes ++ [node], subtree := none }

/-- Whether nothing is in the chunk yet.  Such a chunk takes the position and state of the next
token. -/
def isBlank (c : Chunk) : Bool :=
  c.length == 0 && c.leaves.isEmpty && c.opens.isEmpty && c.closes.isEmpty

/-- Whether parsing can go on from the start of the chunk. -/
def canRestart (c : Chunk) : Bool := c.state.isSome

/-- Whether the chunk closes just what it opens and is worth keeping as a subtree. -/
def isSelfContained (c : Chunk) : Bool :=
  decide (1 < c.leaves.size) && c.opens == c.closes.reverse

/-- The chunk without its contents. -/
def strip (c : Chunk) : Chunk := empty c.start c.state

end Chunk

end RegionTree
