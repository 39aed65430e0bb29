import RegionTree.Proofs.Document.Words
import RegionTree.Proofs.Parse.Spans
set_option autoImplicit false

/-!
# A step of parsing in machine words

`Parse.advance?` is a step of a parse whose sums, differences and negations have to be words: it
gives up where one is not.  It does so at a single place, where old chunks are at hand and the
position from which on they may be taken over is past the largest word (`Parse.advance?_cases`).
There the machine goes on from a small position, with the edit in sight.

All other sums are of positions in the document, and a token never starts before the chunk that it
goes into, so the bound on documents that positions relative to chunks need is enough.
-/

namespace RegionTree

open ChunkSequence (InOrder Tidy)

/-! ## Tokens in chunks -/

namespace Chunk

/-- `Chunk.add` with checked positions. -/
def add? (c : Chunk) (node : NodeId) (start stop : Nat) : Option Chunk := do
  let start ← Word.narrow? (← Word.sub? start c.start)
  let relative ← Word.narrow? (← Word.sub? stop c.start)
  some ({ c with leaves := c.leaves.push ⟨node, start, relative⟩ }.stretchTo stop)

theorem add?_eq {c : Chunk} {start stop : Nat} (hc : c.start ≤ start) (hle : start ≤ stop)
    (hbound : stop < offsetBound) (node : NodeId) :
    c.add? node start stop = some (c.add node start stop) := by
  have hstart : (start - c.start) % offsetBound = start - c.start := Nat.mod_eq_of_lt (by omega)
  have hstop : (stop - c.start) % offsetBound = stop - c.start := Nat.mod_eq_of_lt (by omega)
  rw [add?, add, hstart, hstop, Word.sub?_eq hc, Word.sub?_eq (Nat.le_trans hc hle)]
  dsimp only [Option.bind_eq_bind, Option.bind_some]
  rw [Word.narrow?_eq (by omega), Word.narrow?_eq (by omega)]
  rfl

end Chunk

namespace ChunkSequence

/-- `ChunkSequence.absorb` with checked positions. -/
def absorb? (c : Chunk) (token : Token) : Option Chunk :=
  let opened := token.opens.foldl Chunk.withOpen c
  let covered := match token.node with
    | some node => opened.add? node token.start token.stop
    | none => some (opened.stretchTo token.stop)
  covered.map fun c => token.closes.foldl Chunk.withClose c

/-- `ChunkSequence.add` with checked positions. -/
def add? (b : ChunkSequence) (state : Option State) (token : Token) :
    Option (ChunkSequence × Bool) :=
  let (chunks, boundary) := b.makeRoom state token
  match chunks.back? with
  | none => none
  | some last =>
    (absorb? last token).map fun c =>
      let chunks := chunks.pop.push c
      if token.closes.isEmpty then ({ b with chunks }, boundary)
      else ({ b with chunks := chunks.push (.empty token.stop none) }, true)

theorem absorb?_eq {c : Chunk} {token : Token} (hc : c.start ≤ token.start)
    (hle : token.start ≤ token.stop) (hbound : token.stop < offsetBound) :
    absorb? c token = some (absorb c token) := by
  have hopened : (token.opens.foldl Chunk.withOpen c).start ≤ token.start := by
    rw [Chunk.foldl_withOpen]
    exact hc
  rw [absorb?, absorb]
  cases token.node with
  | none => rfl
  | some node =>
    dsimp only
    rw [Chunk.add?_eq hopened hle hbound, Option.map_some]

/-- The room that is made for a token is at the end. -/
theorem makeRoom_room (b : ChunkSequence) (state : Option State) (token : Token) :
    ∃ (front : Array Chunk) (c : Chunk), (b.makeRoom state token).1 = front.push c ∧
      Room b.capacity state token b.chunks.toList front.toList c := by
  unfold makeRoom
  cases hback : b.chunks.back? with
  | none =>
    have hnil : b.chunks = #[] := Array.back?_eq_none_iff.mp hback
    exact ⟨b.chunks, _, rfl, by rw [hnil]; exact .first⟩
  | some last =>
    obtain ⟨front, hfront⟩ := Array.back?_eq_some_iff.mp hback
    have hlist : b.chunks.toList = front.toList ++ [last] := by simp [hfront]
    dsimp only
    split
    · rename_i hblank
      refine ⟨front, _, by rw [hfront, Array.pop_push], ?_⟩
      rw [hlist]
      exact .taken hblank
    · rename_i hheld
      have hheld : last.isBlank = false := by simpa using hheld
      split
      · refine ⟨b.chunks, _, rfl, ?_⟩
        rw [hlist]
        exact .fresh hheld
      · rename_i hold
        simp only [Bool.or_eq_true, Bool.not_eq_true', Bool.and_eq_true, decide_eq_true_eq, not_or,
          Bool.not_eq_false, List.isEmpty_iff, not_and, Nat.not_le] at hold
        refine ⟨front, last, hfront, ?_⟩
        rw [hlist]
        refine .joined hheld hold.1 ?_
        cases state with
        | none => exact .inl rfl
        | some _ => exact .inr (hold.2 rfl)

theorem add?_eq {b : ChunkSequence} {token : Token} (h : Tidy b.chunks.toList token.start)
    (hle : token.start ≤ token.stop) (hbound : token.stop < offsetBound) (state : Option State) :
    b.add? state token = some (b.add state token) := by
  obtain ⟨front, c, hchunks, hroom⟩ := b.makeRoom_room state token
  have hc : c.start ≤ token.start := Nat.le_trans c.start_le_stop (hroom.receives h).stop_le
  have hmodify : (front.push c).modify ((front.push c).size - 1) (fun c => absorb c token) =
      front.push (absorb c token) := by
    apply Array.toList_inj.mp
    rw [Array.toList_modify, Array.size_push, Nat.add_sub_cancel, Array.toList_push,
      List.modify_eq_take_cons_drop (by simp)]
    simp
  rw [add?, add]
  generalize b.makeRoom state token = room at hchunks
  obtain ⟨chunks, boundary⟩ := room
  obtain rfl : chunks = front.push c := hchunks
  dsimp only
  rw [Array.back?_push, hmodify]
  dsimp only
  rw [absorb?_eq hc hle hbound, Array.pop_push]
  rfl

end ChunkSequence

/-! ## Steps with checks -/

namespace Parse

/-- `Parse.staleFrom` with a checked sum. -/
def staleFrom? (edit : Edit) : Option Nat :=
  if edit.isEmpty then Word.add? edit.start 1 else some edit.start

/-- `Parse.keepLeft` with a checked sum. -/
def keepLeft? (t : Task) (p : Parse) (old : ChunkSequence) : Option Parse := do
  let stale ← staleFrom? p.edit
  let last := (old.firstDependent stale).getD (old.size - 1)
  some <|
    match (old.restartIndex last).filter fun index => decide (p.start ≤ old.startOf index) with
    | none => { p with old := some old }
    | some index =>
      let (left, right) := old.split index
      let p := p.resume (left.withCapacity t.config.chunkCapacity) index
      { p with old := some right, stats := { p.stats with keptLeft := index } }

/-- `Parse.init` with checked sums. -/
def init? (t : Task) (p : Parse) : Option Parse :=
  let start := Ranges.start t.ranges
  let p := { p with stage := .running, start, stop := Ranges.stop t.ranges, pos := start }
  match t.fragments.find? fun f => decide (f.start ≤ start) && decide (start ≤ f.stop) with
  | none => some p
  | some fragment => keepLeft? t p fragment.chunks

/-- The end of the last chunk, with a checked sum. -/
def stop? (chunks : ChunkSequence) : Option Nat :=
  match chunks.chunks.back? with
  | none => some 0
  | some last => Word.add? last.start last.length

/-- `Parse.outlook` with checked sums.  A position before the document or past the largest word is
not an overflow: the source checks for it. -/
def outlook? (t : Task) (p : Parse) : Option Outlook :=
  match p.old with
  | none => some .wait
  | some old => do
    let back ← Word.negate? p.edit.offset
    let oldPos : Int := p.pos + back
    if oldPos < 0 ∨ (maxPosition : Int) < oldPos then some .wait
    else do
      let last ← stop? old
      if last < oldPos.toNat then some .giveUp
      else do
        let sight ← Word.add? p.edit.newStop t.config.marginBefore
        if p.pos < sight then some .wait
        else
          some <|
            match p.inStep? old oldPos.toNat with
            | some index => .take old index
            | none => .wait

/-- `Parse.splice` with a checked difference. -/
def splice? (t : Task) (p : Parse) (old : ChunkSequence) (index : Nat) : Option Parse := do
  let (joined, linked) := p.chunks.appendUpTo (old.relocate index p.edit.offset true) p.stop
  let spliced ← Word.sub? joined.size linked
  let restart := (joined.lastRestartIn spliced linked).or
    (p.checkpoint.filter fun i => decide (i < spliced))
  let kept := (restart.map fun i => i - spliced).getD 0
  let p := { p with old := none, stats := { p.stats with keptRight := p.stats.keptRight + kept } }
  some <|
    match restart with
    | some i => p.resume (joined.split i).1 i
    | none =>
      { p with
        chunks := .empty t.config.chunkCapacity
        checkpoint := none
        pos := p.start
        state := t.grammar.initialState }

/-- `Parse.addToken` with checked positions. -/
def addToken? (p : Parse) (state : Option State) (token : Token) : Option Parse := do
  let (chunks, boundary) ← p.chunks.add? state token
  let p := { p with chunks }
  some (if boundary then p.noteCheckpoint else p)

/-- `Parse.inDocument` with checked sums. -/
def inDocument? (w : Window) (token : Token) : Option Token := do
  let start ← w.startInDocument? token.start
  let stop ← w.stopInDocument? token.stop
  some { token with start, stop := max stop start }

/-- `Parse.addTokens` with checked positions; the state goes with the first of the tokens. -/
def addTokens? (p : Parse) (w : Window) (state : Option State) : List Token → Option Parse
  | [] => some p
  | first :: rest => do
    let p ← p.addToken? state (← inDocument? w first)
    p.addTokens? w none rest

/-- `Parse.skipOne` with checked sums. -/
def skipOne? (t : Task) (p : Parse) : Option Parse := do
  let next := (Document.read t.document p.pos (← Word.add? p.pos 4)).toList.head?
  let stop ← Word.add? p.pos ((next.map Char.utf8Size).getD 1)
  let p := { p with stats := { p.stats with forcedErrors := p.stats.forcedErrors + 1 } }
  let p ← p.addToken? (some p.state) (.plain (some .error) p.pos stop)
  some { p with pos := Ranges.clamp t.ranges stop }

/-- What a step of the grammar leads to. -/
def takeStep (t : Task) (p : Parse) (step : MatchStep) : Parse :=
  if t.landing p.pos step ≤ p.pos then skipOne t p
  else
    let q := p.addTokens (t.window p.pos) p.state step.tokens
    { q with
      pos := t.landing p.pos step
      state := step.state
      stats := { q.stats with matched := q.stats.matched + 1 } }

/-- `Parse.takeStep` from a place in a window, with checked sums. -/
def takeStep? (t : Task) (p : Parse) (w : Window) (here : Nat) (step : MatchStep) :
    Option Parse := do
  let next := Ranges.clamp t.ranges (← w.startInDocument? (← Word.add? here step.length))
  if next ≤ p.pos then skipOne? t p
  else
    let q ← p.addTokens? w (some p.state) step.tokens
    some { q with
      pos := next
      state := step.state
      stats := { q.stats with matched := q.stats.matched + 1 } }

/-- `Parse.matchStep` with checked sums. -/
def matchStep? (t : Task) (p : Parse) : Option Parse := do
  let w := Window.saturated t.ranges t.document p.pos t.config.marginBefore t.config.marginAfter
  let here ← w.position? p.pos
  let first := p.chunks.size - 1
  let reach ← w.stopInDocument? w.length
  let done ←
    match t.grammar.stepAt p.state (.atByte w.text.toList here) with
    | none => skipOne? t p
    | some step => takeStep? t p w here step
  some { done with chunks := done.chunks.lookedTo first reach }

/-- `Parse.advance` with checked sums. -/
def advance? (t : Task) (p : Parse) : Option (Parse × Option ParseResult) :=
  match p.stage with
  | .fresh => (init? t p).map fun q => (q, none)
  | .finished => some (p, none)
  | .running =>
    if p.atEnd then
      some ({ p with stage := .finished, chunks := .empty t.config.chunkCapacity, old := none },
        some (result t p))
    else do
      match ← outlook? t p with
      | .take old index => (splice? t p old index).map fun q => (q, none)
      | .giveUp => (matchStep? t { p with old := none }).map fun q => (q, none)
      | .wait => (matchStep? t p).map fun q => (q, none)

/-! ## Before and behind the edit -/

theorem staleFrom?_eq {edit : Edit} (h : edit.start < maxPosition) :
    staleFrom? edit = some (staleFrom edit) := by
  unfold staleFrom? staleFrom
  split
  · exact Word.add?_eq h
  · rfl

theorem init?_eq {t : Task} {p : Parse} (h : p.edit.start < maxPosition) :
    init? t p = some (init t p) := by
  have hkeep : ∀ q : Parse, q.edit = p.edit → ∀ old,
      keepLeft? t q old = some (keepLeft t q old) := by
    intro q hq old
    rw [keepLeft?, staleFrom?_eq (hq ▸ h)]
    rfl
  unfold init? init
  dsimp only
  cases t.fragments.find? _ with
  | none => rfl
  | some fragment =>
    dsimp only
    exact hkeep _ (by rfl) _

theorem stop?_eq {b : ChunkSequence} (h : ∀ c ∈ b.chunks.toList, c.stop ≤ maxPosition) :
    stop? b = some b.stop := by
  unfold stop? ChunkSequence.stop
  cases hback : b.chunks.back? with
  | none => rfl
  | some last =>
    rw [← Array.getLast?_toList] at hback
    exact Word.add?_eq (h last (List.mem_of_getLast? hback))

theorem splice?_eq (t : Task) (p : Parse) (old : ChunkSequence) (index : Nat) :
    splice? t p old index = some (splice t p old index) := by
  obtain ⟨hchunks, hlinked⟩ :=
    p.chunks.appendUpTo_eq (old.relocate index p.edit.offset true) p.stop
  unfold splice? splice
  generalize p.chunks.appendUpTo (old.relocate index p.edit.offset true) p.stop = joined at *
  obtain ⟨joined, linked⟩ := joined
  have hle : linked ≤ joined.size := by
    rw [ChunkSequence.size, ← Array.length_toList, hchunks, List.length_append, ← hlinked]
    exact Nat.le_add_left _ _
  dsimp only
  rw [Word.sub?_eq hle]
  rfl

/-- The outlook is as it is without checks, and old chunks are taken over only where the edit is out
of sight, or else the sum that says where that is has no value. -/
theorem outlook?_cases {t : Task} {p : Parse} (hoffset : -p.edit.offset ≤ maxOffset)
    (hold : ∀ old, p.old = some old → ∀ c ∈ old.chunks.toList, c.stop ≤ maxPosition) :
    (outlook? t p = some (outlook t p) ∧ ∀ old index, outlook t p = .take old index →
        p.edit.newStop + t.config.marginBefore ≤ p.pos) ∨
      (outlook? t p = none ∧ p.old ≠ none ∧
        maxPosition < p.edit.newStop + t.config.marginBefore) := by
  cases hnow : p.old with
  | none =>
    have hwait : outlook t p = .wait := by rw [outlook, hnow]
    refine .inl ⟨by rw [outlook?, hnow, hwait], fun old index htake => ?_⟩
    rw [hwait] at htake
    cases htake
  | some old =>
    have hstop := stop?_eq (hold old hnow)
    have hback : (p.pos : Int) + -p.edit.offset = p.pos - p.edit.offset := rfl
    rw [outlook?, hnow, Word.negate?_eq hoffset]
    dsimp only [Option.bind_eq_bind, Option.bind_some]
    rw [hback, hstop]
    dsimp only [Option.bind_some]
    by_cases hrange : (p.pos : Int) - p.edit.offset < 0 ∨
        (maxPosition : Int) < p.pos - p.edit.offset
    · have hwait : outlook t p = .wait := by rw [outlook, hnow]; exact if_pos hrange
      rw [if_pos hrange, hwait]
      exact .inl ⟨rfl, fun old index htake => by cases htake⟩
    by_cases hbehind : old.stop < ((p.pos : Int) - p.edit.offset).toNat
    · have hover : outlook t p = .giveUp := by
        rw [outlook, hnow]
        dsimp only
        rw [if_neg hrange, if_pos hbehind]
      rw [if_neg hrange, if_pos hbehind, hover]
      exact .inl ⟨rfl, fun old index htake => by cases htake⟩
    rw [if_neg hrange, if_neg hbehind]
    -- the sum is asked for last, and only where the old chunks reach the place
    by_cases hsum : p.edit.newStop + t.config.marginBefore ≤ maxPosition
    · have hfrom : spliceFrom t p = p.edit.newStop + t.config.marginBefore :=
        Nat.mod_eq_of_lt (Nat.lt_succ_of_le hsum)
      refine .inl ⟨?_, fun old index htake => hfrom ▸ (outlook_eq_take htake).2.1⟩
      rw [outlook, hnow, Word.add?_eq hsum]
      dsimp only [Option.bind_some]
      rw [if_neg hrange, if_neg hbehind, hfrom]
      split <;> rfl
    · refine .inr ⟨?_, by simp, Nat.lt_of_not_le hsum⟩
      rw [Word.add?, if_neg hsum]
      rfl

/-! ## Steps of matching -/

theorem addToken?_eq {p : Parse} (state : Option State) (token : Token)
    (h : Tidy p.chunks.chunks.toList token.start) (hle : token.start ≤ token.stop)
    (hbound : token.stop < offsetBound) :
    p.addToken? state token = some (p.addToken state token) := by
  rw [addToken?, ChunkSequence.add?_eq h hle hbound]
  rfl

theorem inDocument?_eq {w : Window} (h : ∀ p ∈ w.pieces, Window.Short p) (token : Token) :
    inDocument? w token = some (inDocument w token) := by
  rw [inDocument?, Window.startInDocument?_eq h, Window.stopInDocument?_eq h]
  rfl

/-- Tokens in order go into the chunks one behind the other: the induction is on the tokens behind
the first. -/
theorem addTokens?_eq {p : Parse} {w : Window} (hw : ∀ p ∈ w.pieces, Window.Short p) {pos : Nat}
    (h : Tidy p.chunks.chunks.toList pos) {tokens : List Token}
    (horder : InOrder pos (tokens.map (inDocument w)))
    (hbound : ∀ token ∈ tokens.map (inDocument w), token.stop < offsetBound) (state : State) :
    p.addTokens? w (some state) tokens = some (p.addTokens w state tokens) := by
  have hadd : ∀ (p : Parse) (state : Option State) (token : Token) (pos : Nat),
      Tidy p.chunks.chunks.toList pos → pos ≤ token.start → token.start ≤ token.stop →
      token.stop < offsetBound → p.addToken? state token = some (p.addToken state token) ∧
        Tidy (p.addToken state token).chunks.chunks.toList token.stop := by
    intro p state token pos h hpos hle hbound
    have htidy := h.mono hpos
    refine ⟨addToken?_eq state token htidy hle hbound, ?_⟩
    obtain ⟨_, hq⟩ := p.addToken_eq state token
    rw [hq]
    exact (p.chunks.adds_add state token).tidy htidy hle
  have hrest : ∀ (rest : List Token) (p : Parse) (pos : Nat), Tidy p.chunks.chunks.toList pos →
      InOrder pos (rest.map (inDocument w)) →
      (∀ token ∈ rest.map (inDocument w), token.stop < offsetBound) →
      p.addTokens? w none rest =
        some (rest.foldl (fun p token => p.addToken none (inDocument w token)) p) := by
    intro rest
    induction rest with
    | nil => exact fun _ _ _ _ _ => rfl
    | cons token rest ih =>
      intro p pos h horder hbound
      rw [List.map_cons] at horder hbound
      obtain ⟨hfirst, hrest⟩ := List.forall_mem_cons.mp hbound
      obtain ⟨hpos, hle, horder⟩ := horder
      obtain ⟨hsome, htidy⟩ := hadd p none _ pos h hpos hle hfirst
      rw [addTokens?, inDocument?_eq hw]
      dsimp only [Option.bind_eq_bind, Option.bind_some]
      rw [hsome]
      exact ih _ _ htidy horder hrest
  cases tokens with
  | nil => rfl
  | cons first rest =>
    rw [List.map_cons] at horder hbound
    obtain ⟨hfirst, hbound⟩ := List.forall_mem_cons.mp hbound
    obtain ⟨hpos, hle, horder⟩ := horder
    obtain ⟨hsome, htidy⟩ := hadd p (some state) _ pos h hpos hle hfirst
    rw [addTokens?, inDocument?_eq hw]
    dsimp only [Option.bind_eq_bind, Option.bind_some]
    rw [hsome]
    exact hrest rest _ _ htidy horder hbound

section

variable {t : Task} (hr : Ranges.Regular t.document t.ranges)
  (hbound : Document.length t.document < offsetBound) {p : Parse}
  (h : Tidy p.chunks.chunks.toList p.pos) (hspot : Ranges.Spot t.document t.ranges p.pos)
  (hlt : p.pos < Ranges.stop t.ranges)
include hr hbound h hspot hlt

/-- A character that is skipped ends in the document. -/
theorem skipOne?_eq : skipOne? t p = some (skipOne t p) := by
  have hmax : offsetBound + 4 ≤ maxPosition := by decide
  rw [Document.length_eq] at hbound
  have hstop := hr.boundary_stop.le
  obtain ⟨front, c, back, hs, hfront⟩ := hspot.boundary.next (by omega)
  have hend := Task.add_utf8Size_le hs hr.boundary_stop (by omega)
  have hchar : (Document.read t.document p.pos (p.pos + 4)).toList.head? = some c := by
    rw [← hfront]
    exact Task.head?_read hs
  have hadd := addToken?_eq
    (p := { p with stats := { p.stats with forcedErrors := p.stats.forcedErrors + 1 } })
    (some p.state) (.plain (some .error) p.pos (p.pos + c.utf8Size)) h (Nat.le_add_right _ _)
    (by simp only [Token.plain]; omega)
  rw [skipOne?, skipOne, Word.add?_eq (by omega)]
  dsimp only [Option.bind_eq_bind, Option.bind_some]
  rw [hchar]
  dsimp only [Option.map_some, Option.getD_some]
  rw [Word.add?_eq (by omega)]
  dsimp only [Option.bind_some]
  rw [hadd]
  rfl

omit hr hbound h hspot hlt in
theorem matchStep_eq_takeStep (t : Task) (p : Parse) : matchStep t p =
    let done := match t.stepFrom p.point with
      | none => skipOne t p
      | some step => takeStep t p step
    { done with chunks := done.chunks.lookedTo (p.chunks.size - 1) (t.reachFrom p.pos) } := rfl

/-- The tokens of a step end in the document. -/
theorem takeStep?_eq {step : MatchStep} (hstep : t.stepFrom p.point = some step)
    (hshort : ∀ q ∈ (t.window p.pos).pieces, Window.Short q) :
    takeStep? t p (t.window p.pos) ((t.window p.pos).position p.pos) step =
      some (takeStep t p step) := by
  have hmax : offsetBound ≤ maxPosition := by decide
  have hlaid := (Window.shows_around hr p.pos t.config.marginBefore t.config.marginAfter).laid
  obtain ⟨front, part, rest, htext, hfront, hlength, -, -⟩ :=
    Task.stepFrom_consumes hr (a := p.point) hspot.boundary hstep
  have hwindow := hlaid.length_le
  dsimp only [point] at htext hfront
  rw [← Task.window, htext, Text.byteLength_append, Text.byteLength_append] at hwindow
  rw [takeStep?, takeStep, Word.add?_eq (by omega)]
  dsimp only [Option.bind_eq_bind, Option.bind_some]
  rw [Window.startInDocument?_eq hshort]
  dsimp only [Option.bind_some]
  by_cases hback : t.landing p.pos step ≤ p.pos
  · rw [if_pos hback]
    exact (if_pos hback).trans (skipOne?_eq hr hbound h hspot hlt)
  · have hstride : (t.stride p.point).tokens = step.tokens.map (inDocument (t.window p.pos)) := by
      rw [Task.stride, hstep]
      exact congrArg Stride.tokens (if_neg hback)
    obtain ⟨horder, hstop⟩ := Task.inOrder_stride hr (a := p.point) hspot hlt
    obtain ⟨-, hnext, -⟩ := Task.stride_progress hr (a := p.point) hspot hlt
    have hend := hnext.boundary.le
    rw [← Document.length_eq] at hend
    rw [hstride] at horder hstop
    have hadd := addTokens?_eq hshort h horder
      (fun token htoken => by have := hstop token htoken; omega) p.state
    rw [if_neg hback]
    refine (if_neg hback).trans ?_
    rw [hadd]
    rfl

/-- A step of matching stays in the document, so no sum is too large. -/
theorem matchStep?_eq : matchStep? t p = some (matchStep t p) := by
  have hmax : offsetBound ≤ maxPosition := by decide
  have hsaturated : Window.saturated t.ranges t.document p.pos t.config.marginBefore
      t.config.marginAfter = t.window p.pos := by
    refine Window.saturated_eq (fun i hi => ?_) _ _ _
    have hstop := (hr.ends i hi).2.le
    rw [← Document.length_eq] at hstop
    omega
  have hlaid := (Window.shows_around hr p.pos t.config.marginBefore t.config.marginAfter).laid
  rw [← Task.window] at hlaid
  have hshort := hlaid.short (by omega)
  unfold matchStep?
  rw [hsaturated]
  dsimp only [Option.bind_eq_bind]
  rw [Window.position?_eq hshort, Option.bind_some, Window.stopInDocument?_eq hshort,
    Option.bind_some]
  have hplace : t.grammar.stepAt p.state
      (.atByte (t.window p.pos).text.toList ((t.window p.pos).position p.pos)) =
        t.stepFrom p.point := rfl
  rw [hplace, matchStep_eq_takeStep]
  cases hstep : t.stepFrom p.point with
  | none =>
    dsimp only
    rw [skipOne?_eq hr hbound h hspot hlt]
    rfl
  | some step =>
    dsimp only
    rw [takeStep?_eq hr hbound h hspot hlt hstep hshort]
    rfl

end

/-- A step is as it is without checks if what is begun, looked for or matched in it is. -/
theorem advance?_eq {t : Task} {p : Parse}
    (hfresh : p.stage = .fresh → init? t p = some (init t p))
    (hrunning : p.stage = .running → p.atEnd = false → outlook? t p = some (outlook t p) ∧
      ∀ old, matchStep? t { p with old } = some (matchStep t { p with old })) :
    advance? t p = some (advance t p) := by
  unfold advance? advance
  cases hstage : p.stage with
  | fresh =>
    dsimp only
    rw [hfresh hstage, Option.map_some]
  | finished => rfl
  | running =>
    dsimp only
    cases hend : p.atEnd with
    | true => rfl
    | false =>
      obtain ⟨hlook, hmatch⟩ := hrunning hstage hend
      rw [if_neg Bool.false_ne_true, if_neg Bool.false_ne_true, hlook]
      dsimp only [Option.bind_eq_bind, Option.bind_some]
      cases outlook t p with
      | take old index =>
        dsimp only
        rw [splice?_eq, Option.map_some]
      | giveUp =>
        have hnone := hmatch none
        rw [hstage] at hnone
        dsimp only
        rw [hnone, Option.map_some]
      | wait =>
        have hsame : matchStep? t p = some (matchStep t p) := hmatch p.old
        dsimp only
        rw [hsame, Option.map_some]

theorem advance?_of_atEnd {t : Task} {p : Parse} (hrunning : p.stage = .running)
    (hend : p.atEnd = true) : ∃ q, advance? t p = some (q, some (result t p)) := by
  rw [advance?, hrunning]
  dsimp only
  rw [if_pos hend]
  exact ⟨_, rfl⟩

theorem advance?_eq_none {t : Task} {p : Parse} (hrunning : p.stage = .running)
    (hend : p.atEnd = false) (hlook : outlook? t p = none) : advance? t p = none := by
  rw [advance?, hrunning]
  dsimp only
  rw [hend, if_neg Bool.false_ne_true, hlook]
  rfl

end Parse

end RegionTree
