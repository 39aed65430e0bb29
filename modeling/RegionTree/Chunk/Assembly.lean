import RegionTree.Chunk.Sequence
set_option autoImplicit false

/-!
# Assembling postfix lists

The records of a tree are assembled from chunks.  Nodes that are open wait on a stack and count
the records made since they were opened; a node becomes a record when it closes.  A chunk that
closes just what it opens makes a single record, which refers to its subtree; the subtree is kept
on the chunk for the next time.
-/

namespace RegionTree

/-- A node that is open. -/
structure OpenNode where
  node : NodeId
  start : Nat
  /-- How many records were made since it was opened. -/
  size : Nat
  deriving DecidableEq, Repr, Inhabited

/-- Records made so far and the nodes open around the next one, the innermost first. -/
structure Assembly where
  stack : List OpenNode
  records : Array Record
  deriving DecidableEq, Repr, Inhabited

namespace Assembly

/-- Nothing made and nothing open. -/
def empty : Assembly := ⟨[], #[]⟩

/-- Opens a node. -/
def push (a : Assembly) (node : NodeId) (start : Nat) : Assembly :=
  { a with stack := ⟨node, start, 0⟩ :: a.stack }

/-- Makes a record, which counts for every open node. -/
def emit (a : Assembly) (record : Record) : Assembly :=
  ⟨a.stack.map fun o => { o with size := o.size + 1 }, a.records.push record⟩

/-- Closes the innermost open node of a kind; those opened after it are forgotten, and their
records become its children.  Without such a node nothing happens, and the answer is false. -/
def close (a : Assembly) (node : NodeId) (stop : Nat) : Assembly × Bool :=
  match a.stack.dropWhile fun o => o.node != node with
  | [] => (a, false)
  | o :: rest =>
    (Assembly.emit { a with stack := rest } ⟨.node o.node, o.start, stop, o.size⟩, true)

/-- Marks the innermost open node as unfinished and closes it. -/
def closeUnfinished (a : Assembly) (stop : Nat) : Assembly :=
  match a.stack with
  | [] => a
  | o :: _ => ((a.emit (.leaf .incomplete stop stop)).close o.node stop).1

/-- Marks and closes a number of open nodes. -/
def closeAllUnfinished (a : Assembly) (stop : Nat) : Nat → Assembly
  | 0 => a
  | n + 1 => (a.closeUnfinished stop).closeAllUnfinished stop n

/-- Ends the list: every open node is marked as unfinished and closed, or all are forgotten. -/
def finish (a : Assembly) (stop : Nat) (markUnfinished : Bool) : Assembly :=
  if markUnfinished then a.closeAllUnfinished stop a.stack.length
  else { a with stack := [] }

/-- Makes the records of a chunk, placed at `base`. -/
def addChunk (a : Assembly) (c : Chunk) (base : Nat) : Assembly :=
  let opened := c.opens.foldl (fun a node => a.push node base) a
  let filled := c.leaves.foldl
    (fun a t => a.emit (.leaf t.node (base + t.start) (base + t.stop))) opened
  c.closes.foldl (fun a node => (a.close node (base + c.length)).1) filled

end Assembly

/-- The records of a chunk by itself. -/
def Chunk.makeSubtree (c : Chunk) : Subtree :=
  ⟨c.length, (Assembly.empty.addChunk c 0).records.toList⟩

/-- The chunk with its records kept. -/
def Chunk.remember (c : Chunk) : Chunk :=
  { c with subtree := some (c.subtree.getD c.makeSubtree) }

namespace ChunkSequence

/-- Whether a chunk makes a single record in a list up to `stop`. -/
def isShared (c : Chunk) (stop : Nat) : Bool :=
  c.isSelfContained && decide (c.stop ≤ stop)

/-- The chunks that start by `stop`: they are sorted, so the first that does not ends the list. -/
def upTo (b : ChunkSequence) (stop : Nat) : Array Chunk :=
  b.chunks.takeWhile fun c => decide (c.start ≤ stop)

/-- Adds a chunk to an assembly and to the subtrees referred to. -/
def assembleChunk (stop : Nat) (made : Assembly × Array Subtree) (c : Chunk) :
    Assembly × Array Subtree :=
  if isShared c stop then
    (made.1.emit (.reused made.2.size c.start c.stop),
      made.2.push (c.subtree.getD c.makeSubtree))
  else (made.1.addChunk c c.start, made.2)

/-- The postfix list of the chunks up to `stop`. -/
def assemble (b : ChunkSequence) (stop : Nat) (markUnfinished : Bool) : PostfixList :=
  let (a, reused) := (b.upTo stop).foldl (assembleChunk stop) (.empty, #[])
  ⟨(a.finish stop markUnfinished).records.toList, reused.toList⟩

/-- The chunks, with the records kept that a list up to `stop` refers to. -/
def remember (b : ChunkSequence) (stop : Nat) : ChunkSequence :=
  let count := (b.upTo stop).size
  { b with chunks := b.chunks.mapIdx fun i c =>
      if i < count && isShared c stop then c.remember else c }

end ChunkSequence

end RegionTree
