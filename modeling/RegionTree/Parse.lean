import RegionTree.Chunk.Assembly
import RegionTree.Document.Window
import RegionTree.Grammar.Step
import RegionTree.Parse.Config
import RegionTree.Tree
set_option autoImplicit false

/-!
# Parsing

A parse runs in steps.  Each step matches at the current position, or takes over chunks of an
earlier parse.  Chunks are taken over on both sides of an edit:

* on the left, chunks made by steps that never looked at the edited text stay, and parsing goes on
  from the last of them where it can;
* on the right, once parsing is past the edit and comes to the start of an old chunk in the state
  that the chunk has, the rest of the old chunks is moved and appended.

`Parse.advance` is one step; `Task.run` goes on until the parse is finished.
-/

namespace RegionTree

/-- Chunks of an earlier parse and the part of the old document they are good for. -/
structure Fragment where
  chunks : ChunkSequence
  start : Nat
  stop : Nat
  deriving Repr

/-- What is to be parsed, and how. -/
structure Task where
  grammar : Grammar
  document : String
  config : Config
  /-- The parts of the document to be parsed as one text. -/
  ranges : IntervalSet
  /-- Earlier parses whose chunks may be taken over. -/
  fragments : List Fragment
  /-- How the document differs from the one parsed earlier; not at all if it is not given. -/
  edit : Option Edit

/-- How much work a parse did. -/
structure Stats where
  /-- Steps of matching. -/
  matched : Nat
  /-- Characters skipped because no step was possible. -/
  forcedErrors : Nat
  /-- Chunks kept before the edit. -/
  keptLeft : Nat
  /-- Chunks taken over after the edit and kept. -/
  keptRight : Nat
  deriving DecidableEq, Repr, Inhabited

/-- How far a parse has come. -/
inductive Stage where
  | fresh
  | running
  | finished
  deriving DecidableEq, Repr, Inhabited

/-- A parse on its way. -/
structure Parse where
  stage : Stage
  /-- Where the ranges start. -/
  start : Nat
  /-- Where the ranges stop. -/
  stop : Nat
  pos : Nat
  /-- Where the parse is to be broken off. -/
  breakOff : Option Nat
  state : State
  chunks : ChunkSequence
  /-- The last chunk known from which parsing can go on. -/
  checkpoint : Option Nat
  /-- Chunks of an earlier parse that may still be taken over. -/
  old : Option ChunkSequence
  edit : Edit
  stats : Stats
  deriving Repr

/-- What a finished parse leaves: the tree, and the chunks for the next parse. -/
structure ParseResult where
  tree : Tree
  chunks : ChunkSequence
  deriving Repr, Inhabited

namespace Task

/-- The task to parse a whole document without regard to earlier parses. -/
def fresh (grammar : Grammar) (document : String) (config : Config) : Task :=
  { grammar, document, config, ranges := Ranges.whole (Document.length document),
    fragments := [], edit := none }

/-- The task restricted to ranges of the document, whose ends are moved to boundaries. -/
def restrict (t : Task) (ranges : List Interval) : Task :=
  { t with ranges := .ofList (ranges.map fun i =>
      ⟨Document.floor t.document i.start, Document.floor t.document i.stop⟩) }

/-- The task with earlier parses to take chunks from. -/
def reuse (t : Task) (fragments : List Fragment) (edit : Option Edit) : Task :=
  { t with fragments, edit }

/-- The parse of a task before its first step. -/
def begin (t : Task) : Parse :=
  { stage := .fresh, start := 0, stop := 0, pos := 0, breakOff := none
    state := t.grammar.initialState, chunks := .empty t.config.chunkCapacity
    checkpoint := none, old := none
    edit := t.edit.getD (.insert (Document.length t.document) 0)
    stats := ⟨0, 0, 0, 0⟩ }

end Task

namespace Parse

/-- Puts a list of chunks in place, to go on from its last chunk. -/
def resume (p : Parse) (chunks : ChunkSequence) (index : Nat) : Parse :=
  let p := { p with chunks, checkpoint := some index }
  match chunks.chunks.back? with
  | some last =>
    match last.state with
    | some state => { p with pos := last.start, state }
    | none => p
  | none => p

/-! ## Before the edit -/

/-- The first position whose text an edit may have changed for a step that looked there.  If nothing
was changed, what was read up to the position still holds. -/
def staleFrom (edit : Edit) : Nat := if edit.isEmpty then edit.start + 1 else edit.start

/-- The chunk before the edit from which parsing can go on, if there is one in the ranges. -/
def restartChunk? (old : ChunkSequence) (edit : Edit) (start : Nat) : Option Nat :=
  let stale := (old.firstDependent (staleFrom edit)).getD (old.size - 1)
  (old.restartIndex stale).filter fun index => decide (start ≤ old.startOf index)

/-- Keeps the chunks before the edit. -/
def keepLeft (t : Task) (p : Parse) (old : ChunkSequence) : Parse :=
  match restartChunk? old p.edit p.start with
  | none => { p with old := some old }
  | some index =>
    let (left, right) := old.split index
    let p := p.resume (left.withCapacity t.config.chunkCapacity) index
    { p with old := some right, stats := { p.stats with keptLeft := index } }

/-- The first step: finds where to start. -/
def init (t : Task) (p : Parse) : Parse :=
  let start := Ranges.start t.ranges
  let p := { p with stage := .running, start, stop := Ranges.stop t.ranges, pos := start }
  match t.fragments.find? fun f => decide (f.start ≤ start) && decide (start ≤ f.stop) with
  | none => p
  | some fragment => keepLeft t p fragment.chunks

/-! ## After the edit -/

/-- The position past the edit from which on chunks may be taken over: the edited text has to be
out of sight of a step there.  Positions are words of 64 bits. -/
def spliceFrom (t : Task) (p : Parse) : Nat :=
  (p.edit.newStop + t.config.marginBefore) % (maxPosition + 1)

/-- The old chunk at the current position, if it is in step with the parse. -/
def inStep? (p : Parse) (old : ChunkSequence) (oldPos : Nat) : Option Nat :=
  (old.search oldPos .nearest true).filter fun index =>
    decide (((old.chunks[index]?).bind Chunk.state) = some p.state)

/-- Takes over the old chunks from `index` on.  Parsing goes on from the last of them where it can,
or from the last checkpoint before them, or else from the start. -/
def splice (t : Task) (p : Parse) (old : ChunkSequence) (index : Nat) : Parse :=
  let (joined, linked) := p.chunks.appendUpTo (old.relocate index p.edit.offset true) p.stop
  let spliced := joined.size - linked
  let restart := (joined.lastRestartIn spliced linked).or
    (p.checkpoint.filter fun i => decide (i < spliced))
  let kept := (restart.map fun i => i - spliced).getD 0
  let p := { p with old := none, stats := { p.stats with keptRight := p.stats.keptRight + kept } }
  match restart with
  | some i => p.resume (joined.split i).1 i
  | none =>
    { p with
      chunks := .empty t.config.chunkCapacity
      checkpoint := none
      pos := p.start
      state := t.grammar.initialState }

/-- What becomes of the old chunks at the current position. -/
inductive Outlook where
  /-- Nothing can be taken over here. -/
  | wait
  /-- Nothing can be taken over any more. -/
  | giveUp
  /-- The old chunks from an index on can be taken over. -/
  | take (old : ChunkSequence) (index : Nat)

/-- Whether old chunks can be taken over at the current position. -/
def outlook (t : Task) (p : Parse) : Outlook :=
  match p.old with
  | none => .wait
  | some old =>
    let oldPos : Int := p.pos - p.edit.offset
    if oldPos < 0 ∨ (maxPosition : Int) < oldPos then .wait
    else if old.stop < oldPos.toNat then .giveUp
    else if p.pos < spliceFrom t p then .wait
    else
      match p.inStep? old oldPos.toNat with
      | some index => .take old index
      | none => .wait

/-! ## Matching -/

/-- Notes where parsing can go on, after a chunk has been begun. -/
def noteCheckpoint (p : Parse) : Parse :=
  match p.chunks.restartIndex (p.chunks.size - 1) with
  | some index => { p with checkpoint := some index }
  | none => p

/-- Adds a token; `state` is the state before it if a step of matching starts there. -/
def addToken (p : Parse) (state : Option State) (token : Token) : Parse :=
  let (chunks, boundary) := p.chunks.add state token
  let p := { p with chunks }
  if boundary then p.noteCheckpoint else p

/-- A token of a window as one of the document. -/
def inDocument (w : Window) (token : Token) : Token :=
  let start := w.startInDocument token.start
  { token with start, stop := max (w.stopInDocument token.stop) start }

/-- Adds the tokens of a step in order; the state goes with the first. -/
def addTokens (p : Parse) (w : Window) (state : State) : List Token → Parse
  | [] => p
  | first :: rest =>
    rest.foldl (fun p token => p.addToken none (inDocument w token))
      (p.addToken (some state) (inDocument w first))

/-- Skips a character because no step is possible. -/
def skipOne (t : Task) (p : Parse) : Parse :=
  let next := (Document.read t.document p.pos (p.pos + 4)).toList.head?
  let stop := p.pos + (next.map Char.utf8Size).getD 1
  let p := { p with stats := { p.stats with forcedErrors := p.stats.forcedErrors + 1 } }
  let p := p.addToken (some p.state) (.plain (some .error) p.pos stop)
  { p with pos := Ranges.clamp t.ranges stop }

/-- One step of matching. -/
def matchStep (t : Task) (p : Parse) : Parse :=
  let w := Window.around t.ranges t.document p.pos t.config.marginBefore t.config.marginAfter
  let here := w.position p.pos
  let first := p.chunks.size - 1
  let reach := w.stopInDocument w.length
  let done : Parse :=
    match t.grammar.stepAt p.state (.atByte w.text.toList here) with
    | none => skipOne t p
    | some step =>
      let next := Ranges.clamp t.ranges (w.startInDocument (here + step.length))
      if next ≤ p.pos then skipOne t p
      else
        let q := p.addTokens w p.state step.tokens
        { q with
          pos := next
          state := step.state
          stats := { q.stats with matched := q.stats.matched + 1 } }
  { done with chunks := done.chunks.lookedTo first reach }

/-! ## Running -/

/-- The tree and chunks of a parse up to its position. -/
def result (t : Task) (p : Parse) : ParseResult :=
  { tree := .ofPostfix (p.chunks.assemble p.pos t.config.markUnfinished) p.start (p.pos - p.start)
    chunks := p.chunks.remember p.pos }

/-- Whether a running parse has come to its end. -/
def atEnd (p : Parse) : Bool :=
  (p.breakOff.any fun pos => decide (pos ≤ p.pos)) || decide (p.stop ≤ p.pos)

/-- One step of a parse.  The step that finds it at its end gives the result. -/
def advance (t : Task) (p : Parse) : Parse × Option ParseResult :=
  match p.stage with
  | .fresh => (init t p, none)
  | .finished => (p, none)
  | .running =>
    if p.atEnd then
      ({ p with stage := .finished, chunks := .empty t.config.chunkCapacity, old := none },
        some (result t p))
    else
      match outlook t p with
      | .take old index => (splice t p old index, none)
      | .giveUp => (matchStep t { p with old := none }, none)
      | .wait => (matchStep t p, none)

/-- Goes on until the parse is finished; `fuel` bounds the number of steps. -/
def runFrom (t : Task) : Nat → Parse → Option (Parse × ParseResult)
  | 0, _ => none
  | fuel + 1, p =>
    match advance t p with
    | (p, some parsed) => some (p, parsed)
    | (p, none) => runFrom t fuel p

end Parse

namespace Task

/-- A bound on the number of steps of a parse: each position is stepped from at most once before
and once after old chunks are taken over. -/
def stepBound (t : Task) : Nat := 2 * (Document.length t.document + Ranges.stop t.ranges) + 8

/-- The finished parse of a task. -/
def run (t : Task) : Option (Parse × ParseResult) := Parse.runFrom t t.stepBound t.begin

end Task

end RegionTree
