import RegionTree.Proofs.Document.Windows
import RegionTree.Proofs.Grammar.Tiling
set_option autoImplicit false

/-!
# Strides

What a step of matching does is decided by the position and the state alone: it makes the tokens of
a stride, and goes on where the stride stops.  `Parse.matchStep_eq` takes the step apart into the
stride and what becomes of the chunks.

A stride goes forward to a spot of the ranges, and skips a character only if the window does not
hold it (`Task.stride_progress`).
-/

namespace RegionTree

open Text (Boundary byteLength takeBytes dropBytes)

/-- A position and the state there. -/
structure Point where
  pos : Nat
  state : State

/-- What a step of matching makes at a point. -/
structure Stride where
  /-- The tokens, with positions in the document. -/
  tokens : List Token
  next : Point
  /-- How far the step looked. -/
  reach : Nat
  /-- Whether a character was skipped because no step is possible. -/
  forced : Bool

/-! ## Adding the tokens of a step -/

namespace ChunkSequence

/-- Adds the tokens of a step in order; the state goes with the first. -/
def feed (b : ChunkSequence) (state : State) : List Token → ChunkSequence
  | [] => b
  | first :: rest => rest.foldl (fun b token => (b.add none token).1) (b.add (some state) first).1

end ChunkSequence

namespace Task

/-- The stride that skips a character. -/
def skip (t : Task) (a : Point) (reach : Nat) : Stride :=
  let next := (Document.read t.document a.pos (a.pos + 4)).toList.head?
  let stop := a.pos + (next.map Char.utf8Size).getD 1
  { tokens := [.plain (some .error) a.pos stop]
    next := ⟨Ranges.clamp t.ranges stop, a.state⟩
    reach
    forced := true }

/-- What a step sees from a position. -/
def window (t : Task) (pos : Nat) : Window :=
  Window.around t.ranges t.document pos t.config.marginBefore t.config.marginAfter

/-- The step that the grammar makes at a point. -/
def stepFrom (t : Task) (a : Point) : Option MatchStep :=
  t.grammar.stepAt a.state (.atByte (t.window a.pos).text.toList ((t.window a.pos).position a.pos))

/-- Where a step from a position leads. -/
def landing (t : Task) (pos : Nat) (step : MatchStep) : Nat :=
  Ranges.clamp t.ranges ((t.window pos).startInDocument ((t.window pos).position pos + step.length))

/-- How far a step from a position looks. -/
def reachFrom (t : Task) (pos : Nat) : Nat := (t.window pos).stopInDocument (t.window pos).length

/-- The stride at a point. -/
def stride (t : Task) (a : Point) : Stride :=
  match t.stepFrom a with
  | none => t.skip a (t.reachFrom a.pos)
  | some step =>
    if t.landing a.pos step ≤ a.pos then t.skip a (t.reachFrom a.pos)
    else
      { tokens := step.tokens.map (Parse.inDocument (t.window a.pos))
        next := ⟨t.landing a.pos step, step.state⟩
        reach := t.reachFrom a.pos
        forced := false }

end Task

namespace Parse

/-- The point that a parse has come to. -/
def point (p : Parse) : Point := ⟨p.pos, p.state⟩

/-- The work done with one stride more. -/
def count (s : Stats) (r : Stride) : Stats :=
  if r.forced then { s with forcedErrors := s.forcedErrors + 1 }
  else { s with matched := s.matched + 1 }

theorem addToken_eq (p : Parse) (state : Option State) (token : Token) :
    ∃ checkpoint, p.addToken state token =
      { p with chunks := (p.chunks.add state token).1, checkpoint } := by
  unfold addToken
  dsimp only
  split
  · unfold noteCheckpoint
    split
    · exact ⟨_, rfl⟩
    · exact ⟨p.checkpoint, rfl⟩
  · exact ⟨p.checkpoint, rfl⟩

theorem addTokens_eq (p : Parse) (w : Window) (state : State) (tokens : List Token) :
    ∃ checkpoint, p.addTokens w state tokens =
      { p with chunks := p.chunks.feed state (tokens.map (inDocument w)), checkpoint } := by
  cases tokens with
  | nil => exact ⟨p.checkpoint, rfl⟩
  | cons first rest =>
    have hrest : ∀ (rest : List Token) (p : Parse), ∃ checkpoint,
        rest.foldl (fun p token => p.addToken none (inDocument w token)) p =
          { p with
            chunks := (rest.map (inDocument w)).foldl (fun b token => (b.add none token).1) p.chunks
            checkpoint } := by
      intro rest
      induction rest with
      | nil => exact fun p => ⟨p.checkpoint, rfl⟩
      | cons token rest ih =>
        intro p
        obtain ⟨k, hk⟩ := p.addToken_eq none (inDocument w token)
        obtain ⟨l, hl⟩ := ih
          { p with chunks := (p.chunks.add none (inDocument w token)).1, checkpoint := k }
        exact ⟨l, by rw [List.foldl_cons, hk, hl]; rfl⟩
    obtain ⟨k, hk⟩ := p.addToken_eq (some state) (inDocument w first)
    obtain ⟨l, hl⟩ := hrest rest
      { p with chunks := (p.chunks.add (some state) (inDocument w first)).1, checkpoint := k }
    exact ⟨l, by rw [addTokens, hk, hl]; rfl⟩

/-- A step of matching adds the tokens of its stride, notes how far the step looked, and goes on
where the stride stops. -/
theorem matchStep_eq (t : Task) (p : Parse) :
    ∃ checkpoint, matchStep t p =
      { p with
        pos := (t.stride p.point).next.pos
        state := (t.stride p.point).next.state
        chunks := (p.chunks.feed p.state (t.stride p.point).tokens).lookedTo (p.chunks.size - 1)
          (t.stride p.point).reach
        checkpoint
        stats := count p.stats (t.stride p.point) } := by
  have hskip : ∀ reach, ∃ checkpoint,
      { skipOne t p with
        chunks := (skipOne t p).chunks.lookedTo (p.chunks.size - 1) reach } =
      { p with
        pos := (t.skip p.point reach).next.pos
        state := (t.skip p.point reach).next.state
        chunks := (p.chunks.feed p.state (t.skip p.point reach).tokens).lookedTo
          (p.chunks.size - 1) (t.skip p.point reach).reach
        checkpoint
        stats := count p.stats (t.skip p.point reach) } := by
    intro reach
    obtain ⟨k, hk⟩ := addToken_eq
      { p with stats := { p.stats with forcedErrors := p.stats.forcedErrors + 1 } } (some p.state)
      (.plain (some .error) p.pos (p.pos + ((Document.read t.document p.pos
        (p.pos + 4)).toList.head?.map Char.utf8Size).getD 1))
    refine ⟨k, ?_⟩
    rw [skipOne, hk]
    rfl
  have hmatch : matchStep t p =
      { (match t.stepFrom p.point with
        | none => skipOne t p
        | some step =>
          if t.landing p.pos step ≤ p.pos then skipOne t p
          else
            { p.addTokens (t.window p.pos) p.state step.tokens with
              pos := t.landing p.pos step
              state := step.state
              stats :=
                { (p.addTokens (t.window p.pos) p.state step.tokens).stats with
                  matched :=
                    (p.addTokens (t.window p.pos) p.state step.tokens).stats.matched + 1 } } :
          Parse) with
        chunks :=
          (match t.stepFrom p.point with
          | none => skipOne t p
          | some step =>
            if t.landing p.pos step ≤ p.pos then skipOne t p
            else
              { p.addTokens (t.window p.pos) p.state step.tokens with
                pos := t.landing p.pos step
                state := step.state
                stats :=
                  { (p.addTokens (t.window p.pos) p.state step.tokens).stats with
                    matched :=
                      (p.addTokens (t.window p.pos) p.state step.tokens).stats.matched + 1 } } :
            Parse).chunks.lookedTo (p.chunks.size - 1) (t.reachFrom p.pos) } := rfl
  rw [hmatch, Task.stride]
  cases t.stepFrom p.point with
  | none => exact hskip _
  | some step =>
    by_cases hback : t.landing p.pos step ≤ p.pos
    · have hpoint : t.landing p.point.pos step ≤ p.point.pos := hback
      simp only [if_pos hback, if_pos hpoint]
      exact hskip _
    · have hpoint : ¬ t.landing p.point.pos step ≤ p.point.pos := hback
      simp only [if_neg hback, if_neg hpoint]
      obtain ⟨k, hk⟩ := p.addTokens_eq (t.window p.pos) p.state step.tokens
      refine ⟨k, ?_⟩
      rw [hk]
      rfl

theorem point_matchStep (t : Task) (p : Parse) :
    (matchStep t p).point = (t.stride p.point).next := by
  obtain ⟨checkpoint, hstep⟩ := matchStep_eq t p
  rw [hstep]
  rfl

theorem pos_matchStep (t : Task) (p : Parse) :
    (matchStep t p).pos = (t.stride p.point).next.pos :=
  congrArg Point.pos (point_matchStep t p)

end Parse

/-! ## Progress -/

namespace Task

/-- The character that `skip` reads. -/
theorem head?_read {document : String} {front back : List Char} {c : Char}
    (h : document.toList = front ++ c :: back) :
    (Document.read document (byteLength front) (byteLength front + 4)).toList.head? = some c := by
  have hread := Document.takeBytes_read (s := document)
    (Nat.le_add_right (byteLength front) 4)
  rw [h, Text.takeBytes_byteLength, Text.takeBytes_append_of_le (Nat.le_add_right _ _),
    Nat.add_sub_cancel_left] at hread
  rw [← List.append_cancel_left hread, Text.takeBytes, if_pos c.utf8Size_le_four, List.head?_cons]

theorem next_skip {t : Task} {a : Point} {front back : List Char} {c : Char}
    (h : t.document.toList = front ++ c :: back) (ha : a.pos = byteLength front) (reach : Nat) :
    t.skip a reach =
      { tokens := [.plain (some .error) a.pos (a.pos + c.utf8Size)]
        next := ⟨Ranges.clamp t.ranges (a.pos + c.utf8Size), a.state⟩
        reach
        forced := true } := by
  rw [skip, ha, head?_read h]
  rfl

/-- After a boundary the next one is not before the end of a character. -/
theorem add_utf8Size_le {cs front back : List Char} {c : Char} (h : cs = front ++ c :: back)
    {pos : Nat} (hpos : Boundary cs pos) (hlt : byteLength front < pos) :
    byteLength front + c.utf8Size ≤ pos := by
  rw [h] at hpos
  obtain ⟨part, b, hbehind, hpart⟩ := hpos.split_append (Nat.le_of_lt hlt)
  rw [Text.byteLength_append] at hpart
  cases part with
  | nil =>
    rw [Text.byteLength_nil] at hpart
    omega
  | cons d more =>
    rw [List.cons_append, List.cons.injEq] at hbehind
    rw [hbehind.1, ← hpart, Text.byteLength_cons]
    omega

/-- A position in a window is a boundary of its text, and translated forward it stays a boundary. -/
theorem boundary_position {document : String} {pos before after : Nat} {intervals : List Interval}
    {w : Window} (hw : Window.Shows document pos before after intervals w)
    (hpos : Boundary document.toList pos) : Boundary w.text.toList (w.position pos) := by
  unfold Window.position
  split
  · rename_i p hp
    have hmem := List.mem_of_find?_eq_some hp
    have hin := List.find?_some hp
    simp only [Bool.and_eq_true, decide_eq_true_eq] at hin
    obtain ⟨k, hk, hcut, -⟩ := hw.laid.boundary_of_mem hmem hpos hin.1 hin.2
    rw [hk, Nat.zero_add]
    exact hcut
  · rw [Window.length, Document.length_eq]
    exact Text.boundary_byteLength _

/-- The step of the grammar consumes some of the window behind the position, and its tokens cover
that. -/
theorem stepFrom_consumes {t : Task} (hr : Ranges.Regular t.document t.ranges) {a : Point}
    (ha : Boundary t.document.toList a.pos) {step : MatchStep} (h : t.stepFrom a = some step) :
    ∃ front part rest, (t.window a.pos).text.toList = front ++ part ++ rest ∧
      byteLength front = (t.window a.pos).position a.pos ∧ byteLength part = step.length ∧
      0 < step.length ∧ Token.Tiles ((t.window a.pos).position a.pos) step.tokens
        ((t.window a.pos).position a.pos + step.length) := by
  have hshows := Window.shows_around hr a.pos t.config.marginBefore t.config.marginAfter
  obtain ⟨front, back, htext, hfront⟩ := boundary_position hshows ha
  rw [stepFrom, window, htext, ← hfront, Text.Place.atByte_append] at h
  obtain ⟨⟨part, rest, hafter, hlength⟩, hpos, htiles⟩ := Grammar.stepAt_consumes h
  refine ⟨front, part, rest, ?_, hfront, hlength, hpos, ?_⟩
  · rw [window, htext, List.append_assoc]
    exact congrArg _ hafter
  · rw [window, ← hfront]
    exact htiles

/-- So the window has a piece. -/
theorem pieces_ne_nil {t : Task} (hr : Ranges.Regular t.document t.ranges) {a : Point}
    (ha : Boundary t.document.toList a.pos) {step : MatchStep} (h : t.stepFrom a = some step) :
    (t.window a.pos).pieces ≠ [] := by
  obtain ⟨front, part, rest, htext, -, hlength, hpos, -⟩ := stepFrom_consumes hr ha h
  intro hnil
  have hlaid := (Window.shows_around hr a.pos t.config.marginBefore t.config.marginAfter).laid
  rw [← window, hnil] at hlaid
  have hempty : front ++ part ++ rest = [] := htext.symm.trans hlaid
  rw [List.append_eq_nil_iff, List.append_eq_nil_iff] at hempty
  rw [← hlength, hempty.1.2] at hpos
  exact Nat.lt_irrefl 0 hpos

/-- The step leads to a boundary. -/
theorem boundary_landing {t : Task} (hr : Ranges.Regular t.document t.ranges) {a : Point}
    (ha : Boundary t.document.toList a.pos) {step : MatchStep} (h : t.stepFrom a = some step) :
    Boundary t.document.toList
      ((t.window a.pos).startInDocument ((t.window a.pos).position a.pos + step.length)) := by
  have hshows := Window.shows_around hr a.pos t.config.marginBefore t.config.marginAfter
  obtain ⟨front, part, rest, htext, hfront, hlength, -, -⟩ := stepFrom_consumes hr ha h
  have hboundary := hshows.laid.boundary_startIn (pieces_ne_nil hr ha h)
    (k := byteLength front + step.length)
    ⟨front ++ part, rest, htext, by rw [Text.byteLength_append, hlength]⟩
  rw [Nat.zero_add, ← Window.startInDocument_eq, hfront] at hboundary
  exact hboundary

/-- A window that holds the character behind its position makes a step possible, and the step leads
past the position. -/
theorem exists_stepFrom {t : Task} (hr : Ranges.Regular t.document t.ranges) {a : Point}
    (ha : Ranges.Spot t.document t.ranges a.pos) (hlt : a.pos < Ranges.stop t.ranges)
    {front back : List Char} {c : Char} (hs : t.document.toList = front ++ c :: back)
    (hfront : byteLength front = a.pos) (hmargin : c.utf8Size ≤ t.config.marginAfter) :
    ∃ step, t.stepFrom a = some step ∧ a.pos < t.landing a.pos step := by
  have hc := c.utf8Size_pos
  have hshows := Window.shows_around hr a.pos t.config.marginBefore t.config.marginAfter
  have hcut : Boundary t.document.toList (a.pos + c.utf8Size) :=
    ⟨front ++ [c], back, by simp [hs], by simp [Text.byteLength_append, hfront]⟩
  obtain ⟨i, hi, hle, hbefore⟩ : Ranges.Holds t.ranges a.pos := by
    rcases ha.inside with hin | hstop
    · exact hin
    · omega
  have hroom := add_utf8Size_le hs (hr.ends i hi).2 (by omega)
  obtain ⟨p, hp, hfrom, hto⟩ := hshows.complete i hi a.pos (by omega) ha.boundary
    (a.pos + c.utf8Size) (by omega) (by omega) hcut
  have hfind := hshows.laid.position_of_mem hp hfrom (by omega)
  obtain ⟨k, hk, ⟨x, y, htext, hx⟩, hinside⟩ :=
    hshows.laid.boundary_of_mem hp ha.boundary hfrom (by omega)
  have hposition : (t.window a.pos).position a.pos = k := by
    rw [window, Window.position, hfind]
    dsimp only
    omega
  cases hstep : t.stepFrom a with
  | none =>
    rw [stepFrom, hposition, window, htext, ← hx, Text.Place.atByte_append] at hstep
    have hafter := Grammar.stepAt_eq_none hstep
    dsimp only at hafter
    rw [htext, hafter, List.append_nil, hx] at hinside
    exact absurd hinside (Nat.lt_irrefl k)
  | some step =>
    obtain ⟨-, -, -, -, -, -, hpos, -⟩ := stepFrom_consumes hr ha.boundary hstep
    have hlanding := boundary_landing hr ha.boundary hstep
    have hclamp := (hr.clamp hlanding).2
    have hforward := hshows.laid.lt_startIn hp hfrom (by omega)
      (n := (t.window a.pos).position a.pos + step.length) (by omega)
    rw [← Window.startInDocument_eq, ← window] at hforward
    refine ⟨step, rfl, ?_⟩
    unfold landing
    omega

/-- A stride from a spot before the end goes forward to a spot.  It skips a character only if the
margin after the position is too small for it. -/
theorem stride_progress {t : Task} (hr : Ranges.Regular t.document t.ranges) {a : Point}
    (ha : Ranges.Spot t.document t.ranges a.pos) (hlt : a.pos < Ranges.stop t.ranges) :
    a.pos < (t.stride a).next.pos ∧ Ranges.Spot t.document t.ranges (t.stride a).next.pos ∧
      ((t.stride a).forced = true → ∃ front c back, t.document.toList = front ++ c :: back ∧
        byteLength front = a.pos ∧ t.config.marginAfter < c.utf8Size) := by
  have hend : a.pos < byteLength t.document.toList :=
    Nat.lt_of_lt_of_le hlt hr.boundary_stop.le
  obtain ⟨front, c, back, hs, hfront⟩ := ha.boundary.next hend
  have hcut : Boundary t.document.toList (a.pos + c.utf8Size) :=
    ⟨front ++ [c], back, by simp [hs], by simp [Text.byteLength_append, hfront]⟩
  have hc := c.utf8Size_pos
  have hskip : ∀ reach, a.pos < (t.skip a reach).next.pos ∧
      Ranges.Spot t.document t.ranges (t.skip a reach).next.pos := by
    intro reach
    obtain ⟨hspot, hle⟩ := hr.clamp hcut
    rw [next_skip hs hfront.symm]
    dsimp only
    exact ⟨by omega, hspot⟩
  have hforced : (t.stride a).forced = true → t.config.marginAfter < c.utf8Size := by
    refine fun hforced => Nat.lt_of_not_le ?_
    intro hmargin
    obtain ⟨step, hstep, hland⟩ := exists_stepFrom hr ha hlt hs hfront hmargin
    rw [stride, hstep] at hforced
    dsimp only at hforced
    rw [if_neg (by omega)] at hforced
    cases hforced
  suffices h : a.pos < (t.stride a).next.pos ∧
      Ranges.Spot t.document t.ranges (t.stride a).next.pos from
    ⟨h.1, h.2, fun hf => ⟨front, c, back, hs, hfront, hforced hf⟩⟩
  unfold stride
  split
  · exact hskip _
  · rename_i step hstep
    split
    · exact hskip _
    · rename_i hnext
      exact ⟨Nat.lt_of_not_le hnext, (hr.clamp (boundary_landing hr ha.boundary hstep)).1⟩

end Task

end RegionTree
