import RegionTree.Chunk
set_option autoImplicit false

/-!
# Sequences of chunks

The chunks of a document in order.  Tokens are added at the end and cut into chunks where nodes
open and close, and between steps of matching once a chunk holds `capacity` tokens.  A sequence
can be split at a chunk, moved, and joined to another.
-/

namespace RegionTree

/-- The chunks of a document. -/
structure ChunkSequence where
  chunks : Array Chunk
  /-- How many tokens a chunk holds before a step of matching starts a new one. -/
  capacity : Nat
  deriving DecidableEq, Repr, Inhabited

/-- Which neighbour is taken when no chunk starts at a position. -/
inductive Neighbour where
  | before
  | nearest
  | after
  deriving DecidableEq, Repr, Inhabited

namespace ChunkSequence

/-- The sequence without chunks; every chunk may hold a token. -/
def empty (capacity : Nat) : ChunkSequence := ⟨#[], max capacity 1⟩

/-- The sequence with another capacity. -/
def withCapacity (b : ChunkSequence) (capacity : Nat) : ChunkSequence :=
  { b with capacity := max capacity 1 }

/-- The number of chunks. -/
def size (b : ChunkSequence) : Nat := b.chunks.size

/-- The end of the last chunk. -/
def stop (b : ChunkSequence) : Nat := (b.chunks.back?.map Chunk.stop).getD 0

/-! ## Adding tokens -/

/-- The chunk with a token added. -/
def absorb (c : Chunk) (token : Token) : Chunk :=
  let opened := token.opens.foldl Chunk.withOpen c
  let covered := match token.node with
    | some node => opened.add node token.start token.stop
    | none => opened.stretchTo token.stop
  token.closes.foldl Chunk.withClose covered

/-- The chunks with a place for a token at their end, and whether a chunk begins there. -/
def makeRoom (b : ChunkSequence) (state : Option State) (token : Token) : Array Chunk × Bool :=
  match b.chunks.back? with
  | none => (b.chunks.push (.empty token.start state), true)
  | some last =>
    if last.isBlank then
      (b.chunks.pop.push { last with start := token.start, state }, true)
    else if !token.opens.isEmpty || (state.isSome && decide (b.capacity ≤ last.leaves.size)) then
      (b.chunks.push (.empty token.start state), true)
    else (b.chunks, false)

/-- Adds a token; `state` is the state before it if a step of matching starts there.  Also tells
whether a chunk begins at the token or after it. -/
def add (b : ChunkSequence) (state : Option State) (token : Token) : ChunkSequence × Bool :=
  let (chunks, boundary) := b.makeRoom state token
  let chunks := chunks.modify (chunks.size - 1) fun c => absorb c token
  if token.closes.isEmpty then ({ b with chunks }, boundary)
  else ({ b with chunks := chunks.push (.empty token.stop none) }, true)

/-- Records that the step that made the chunks from `index` on looked up to `pos`.  A blank chunk
at the end is left out, because its state comes from that step. -/
def lookedTo (b : ChunkSequence) (index pos : Nat) : ChunkSequence :=
  let stop := if b.chunks.back?.any Chunk.isBlank then b.size - 1 else b.size
  let start := min index (stop - 1)
  let extend : Array Chunk → Nat → Array Chunk := fun chunks k =>
    chunks.modify (start + k) fun c => c.lookedTo pos
  { b with chunks := (List.range (stop - start)).foldl extend b.chunks }

/-! ## Cutting and joining -/

/-- The chunks up to `index`, the last one without its contents, and the chunks from `index`
on. -/
def split (b : ChunkSequence) (index : Nat) : ChunkSequence × ChunkSequence :=
  let left := (b.chunks.extract 0 (index + 1)).modify index Chunk.strip
  ({ b with chunks := left }, { b with chunks := b.chunks.extract index b.size })

/-- Moves the chunks from `index` on by an offset; the others are dropped or stay as they are. -/
def relocate (b : ChunkSequence) (index : Nat) (offset : Int) (dropOthers : Bool) : ChunkSequence :=
  let moved := (b.chunks.extract index b.size).map fun c => c.shift offset
  { b with chunks := if dropOthers then moved else b.chunks.extract 0 index ++ moved }

/-- The sequence without a blank chunk at its end. -/
def dropBlank (b : ChunkSequence) : ChunkSequence :=
  if b.chunks.back?.any Chunk.isBlank then { b with chunks := b.chunks.pop } else b

/-- Appends the chunks of `right` up to the first that stops past `limit`; also tells how many. -/
def appendUpTo (b right : ChunkSequence) (limit : Nat) : ChunkSequence × Nat :=
  let taken := right.chunks.takeWhile fun c => decide (c.stop ≤ limit)
  ({ b.dropBlank with chunks := b.dropBlank.chunks ++ taken }, taken.size)

/-! ## Finding chunks -/

/-- The first chunk whose tokens depend on the text from a position on. -/
def firstDependent (b : ChunkSequence) (pos : Nat) : Option Nat :=
  b.chunks.findIdx? fun c => decide (pos ≤ c.reach)

/-- Halves a stretch of `size` chunks from `base` on until one is left, keeping the half that
starts with the last chunk found to start at or before `pos`. -/
def halve (b : ChunkSequence) (pos : Nat) : Nat → Nat → Nat → Nat
  | 0, base, _ => base
  | fuel + 1, base, size =>
    if size ≤ 1 then base
    else
      let mid := base + size / 2
      let base := if (b.chunks[mid]?).any fun c => decide (c.start ≤ pos) then mid else base
      b.halve pos fuel base (size - size / 2)

/-- The number of chunks that start at or before a position, by binary search. -/
def countUpTo (b : ChunkSequence) (pos : Nat) : Nat :=
  if b.size = 0 then 0
  else
    let base := b.halve pos b.size 0 b.size
    if (b.chunks[base]?).any fun c => decide (c.start ≤ pos) then base + 1 else base

/-- The start of a chunk. -/
def startOf (b : ChunkSequence) (index : Nat) : Nat := ((b.chunks[index]?).map Chunk.start).getD 0

/-- The last chunk that starts at a position.  If there is none, one next to it unless the search
is precise. -/
def search (b : ChunkSequence) (pos : Nat) (choice : Neighbour) (precise : Bool) : Option Nat :=
  let after := b.countUpTo pos
  if 0 < after && b.startOf (after - 1) == pos then some (after - 1)
  else if precise then none
  else
    let before := if 0 < after then some (after - 1) else none
    let next := if after < b.size then some after else none
    match choice with
    | .before => before
    | .after => next
    | .nearest =>
      match before, next with
      | some i, some j =>
        if pos - b.startOf i ≤ b.startOf j - pos then some i else some j
      | i, j => i.or j

/-- The last index in a stretch of `count` from `start` on with a restartable chunk. -/
def lastRestartIn (b : ChunkSequence) (start : Nat) : Nat → Option Nat
  | 0 => none
  | count + 1 =>
    if (b.chunks[start + count]?).any Chunk.canRestart then some (start + count)
    else b.lastRestartIn start count

/-- The last restartable chunk at or before an index. -/
def restartIndex (b : ChunkSequence) (index : Nat) : Option Nat :=
  b.lastRestartIn 0 (min (index + 1) b.size)

end ChunkSequence

end RegionTree
