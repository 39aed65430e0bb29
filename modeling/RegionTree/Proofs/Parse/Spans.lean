import RegionTree.Proofs.Chunk.Growth
import RegionTree.Proofs.Grammar.RegionStack
import RegionTree.Proofs.Parse.Locality
import RegionTree.Proofs.Parse.Scratch
set_option autoImplicit false

/-!
# The spans of trees

The tokens of a stride are in order in the document, also where they go over a gap between ranges:
a token that stops at the gap stops before it, and the next one starts behind it.  So the tokens of
all strides are in order, the forest grows in order, and the tree of a parse from scratch is well
nested (`Task.tree_wellNested`).
-/

namespace RegionTree

open Text (Boundary byteLength)
open ChunkSequence (InOrder Tidy Change tokensOf change)
open PartialForest (Grown)
open RegionTree.Tree (Row)
open Token (Tiles)

/-! ## Tokens in order -/

/-- Tokens that cover a part of a window are in order in the document. -/
theorem Token.Tiles.inDocument {document : String} {w : Window}
    (hw : Window.Laid document 0 w.pieces w.text.toList) {tokens : List Token} {pos stop : Nat}
    (h : Tiles pos tokens stop) {lo : Nat} (hlo : lo ≤ w.startInDocument pos) :
    InOrder lo (tokens.map (Parse.inDocument w)) ∧
      ∀ t ∈ tokens.map (Parse.inDocument w), t.stop ≤ w.startInDocument stop := by
  induction tokens generalizing pos lo with
  | nil => exact ⟨trivial, by simp⟩
  | cons t rest ih =>
    obtain ⟨rfl, hle, hrest⟩ := h
    have hstops : w.stopInDocument t.stop ≤ w.startInDocument t.stop := hw.stopIn_le_startIn
    have hstarts : w.startInDocument t.start ≤ w.startInDocument t.stop := hw.startIn_mono hle
    have hend : w.startInDocument t.stop ≤ w.startInDocument stop := hw.startIn_mono hrest.le
    have hfirst : (Parse.inDocument w t).stop ≤ w.startInDocument t.stop :=
      Nat.max_le.mpr ⟨hstops, hstarts⟩
    obtain ⟨horder, hall⟩ := ih hrest hfirst
    refine ⟨⟨hlo, Nat.le_max_right _ _, horder⟩, ?_⟩
    intro u hu
    rcases List.mem_cons.mp hu with rfl | hu
    · exact Nat.le_trans hfirst hend
    · exact hall u hu

namespace Task

variable {t : Task}

/-- Where a step is possible, its position in the window is that of the point. -/
theorem startInDocument_position (hr : Ranges.Regular t.document t.ranges) {a : Point}
    (ha : Boundary t.document.toList a.pos) {step : MatchStep} (h : t.stepFrom a = some step) :
    (t.window a.pos).startInDocument ((t.window a.pos).position a.pos) = a.pos := by
  obtain ⟨front, part, rest, htext, hfront, hlength, hpos, -⟩ := stepFrom_consumes hr ha h
  have hlaid := (Window.shows_around hr a.pos t.config.marginBefore t.config.marginAfter).laid
  rw [← window] at hlaid
  unfold Window.position at hfront ⊢
  split
  · rename_i p hp
    have hin := List.find?_some hp
    simp only [Bool.and_eq_true, decide_eq_true_eq] at hin
    exact hlaid.startIn_of_mem (List.mem_of_find?_eq_some hp) hin.1 hin.2
  · -- behind the text of the window there is nothing to match
    rename_i hmiss
    rw [hmiss] at hfront
    dsimp only at hfront
    rw [Window.length, Document.length_eq, htext, Text.byteLength_append,
      Text.byteLength_append] at hfront
    omega

/-- No window leads past the end of the ranges. -/
theorem startInDocument_le (hr : Ranges.Regular t.document t.ranges) {pos : Nat}
    (hpieces : (t.window pos).pieces ≠ []) (n : Nat) :
    (t.window pos).startInDocument n ≤ Ranges.stop t.ranges := by
  have hshows := Window.shows_around hr pos t.config.marginBefore t.config.marginAfter
  obtain ⟨p, hp, -, hle⟩ := Window.exists_startIn hpieces n
  obtain ⟨i, hi, -, hstop⟩ := hshows.inside p hp
  exact Nat.le_trans hle (Nat.le_trans hstop (Ranges.stop_le hr.separated hi))

/-- The tokens of a stride are in order from its point to the next one. -/
theorem inOrder_stride (hr : Ranges.Regular t.document t.ranges) {a : Point}
    (ha : Ranges.Spot t.document t.ranges a.pos) (hlt : a.pos < Ranges.stop t.ranges) :
    InOrder a.pos (t.stride a).tokens ∧
      ∀ token ∈ (t.stride a).tokens, token.stop ≤ (t.stride a).next.pos := by
  obtain ⟨front, c, back, hs, hfront⟩ :=
    ha.boundary.next (Nat.lt_of_lt_of_le hlt hr.boundary_stop.le)
  have hskip : ∀ reach, InOrder a.pos (t.skip a reach).tokens ∧
      ∀ token ∈ (t.skip a reach).tokens, token.stop ≤ (t.skip a reach).next.pos := by
    intro reach
    have hcut : Boundary t.document.toList (a.pos + c.utf8Size) :=
      ⟨front ++ [c], back, by simp [hs], by simp [Text.byteLength_append, hfront]⟩
    have hend := add_utf8Size_le hs hr.boundary_stop (by omega)
    obtain ⟨-, hclamp⟩ := hr.clamp hcut
    rw [next_skip hs hfront.symm]
    refine ⟨⟨Nat.le_refl _, Nat.le_add_right _ _, trivial⟩, ?_⟩
    intro token htoken
    rw [List.mem_singleton.mp htoken]
    simp only [Token.plain]
    omega
  unfold stride
  cases hstep : t.stepFrom a with
  | none => exact hskip _
  | some step =>
    dsimp only
    split
    · exact hskip _
    · obtain ⟨-, -, -, -, -, -, -, htiles⟩ := stepFrom_consumes hr ha.boundary hstep
      have hlaid := (Window.shows_around hr a.pos t.config.marginBefore t.config.marginAfter).laid
      have hpieces := pieces_ne_nil hr ha.boundary hstep
      obtain ⟨-, hclamp⟩ := hr.clamp (boundary_landing hr ha.boundary hstep)
      obtain ⟨horder, hall⟩ := htiles.inDocument hlaid
        (Nat.le_of_eq (startInDocument_position hr ha.boundary hstep).symm)
      refine ⟨horder, ?_⟩
      intro token htoken
      have hend := startInDocument_le hr hpieces
        ((t.window a.pos).position a.pos + step.length)
      rw [Nat.min_eq_left hend] at hclamp
      exact Nat.le_trans (hall token htoken) hclamp

end Task

/-! ## Chunks in order -/

namespace ChunkSequence

/-- The changes by which the tokens of a step are added. -/
def changesOf (s : State) : List Token → List Change
  | [] => []
  | first :: rest => .add (some s) first :: rest.map (.add none)

theorem feed_eq (b : ChunkSequence) (s : State) (tokens : List Token) :
    b.feed s tokens = (changesOf s tokens).foldl change b := by
  cases tokens with
  | nil => rfl
  | cons first rest => rw [feed, changesOf, List.foldl_cons, List.foldl_map]; rfl

theorem tokensOf_changesOf (s : State) (tokens : List Token) :
    tokensOf (changesOf s tokens) = tokens := by
  have hrest : ∀ rest : List Token, tokensOf (rest.map (.add none)) = rest := by
    intro rest
    induction rest with
    | nil => rfl
    | cons t rest ih => rw [List.map_cons, tokensOf, ih]
  cases tokens with
  | nil => rfl
  | cons first rest => rw [changesOf, tokensOf, hrest]

/-- Tokens in order keep a sequence tidy, and what it does grows by what they do. -/
theorem tidy_feed {b : ChunkSequence} (s : State) {tokens : List Token} {pos stop : Nat}
    (h : Tidy b.chunks.toList pos) (hpos : pos ≤ stop) (horder : InOrder pos tokens)
    (hstop : ∀ t ∈ tokens, t.stop ≤ stop) (hbound : stop < offsetBound) :
    Tidy (b.feed s tokens).chunks.toList stop ∧
      (b.feed s tokens).actions = b.actions ++ tokens.flatMap Token.actions := by
  have htokens := tokensOf_changesOf s tokens
  rw [feed_eq]
  generalize changesOf s tokens = changes at htokens ⊢
  subst htokens
  exact tidy_changes changes h hpos horder (fun t ht => Nat.lt_of_le_of_lt (hstop t ht) hbound)
    hstop

theorem actions_lookedTo (b : ChunkSequence) (index pos : Nat) :
    (b.lookedTo index pos).actions = b.actions :=
  actions_revised (revised_lookedTo b index pos)

end ChunkSequence

namespace Task

variable {t : Task}

/-- A step of matching keeps the chunks tidy, and they do what the stride does besides. -/
theorem tidy_matchStep (hr : Ranges.Regular t.document t.ranges)
    (hbound : Document.length t.document < offsetBound) {p : Parse}
    (h : Tidy p.chunks.chunks.toList p.pos)
    (hspot : Ranges.Spot t.document t.ranges p.pos) (hlt : p.pos < Ranges.stop t.ranges) :
    Tidy (Parse.matchStep t p).chunks.chunks.toList (Parse.matchStep t p).pos ∧
      (Parse.matchStep t p).chunks.actions =
        p.chunks.actions ++ (t.stride p.point).tokens.flatMap Token.actions := by
  obtain ⟨hforward, hnext, -⟩ := stride_progress hr (a := p.point) hspot hlt
  obtain ⟨horder, hstop⟩ := inOrder_stride hr (a := p.point) hspot hlt
  have hend : (t.stride p.point).next.pos < offsetBound := by
    have := hnext.boundary.le
    rw [Document.length_eq] at hbound
    omega
  obtain ⟨htidy, hactions⟩ := ChunkSequence.tidy_feed p.state h (Nat.le_of_lt hforward)
    horder hstop hend
  obtain ⟨_, heq⟩ := Parse.matchStep_eq t p
  rw [heq]
  refine ⟨htidy.revised (ChunkSequence.revised_lookedTo _ _ _), ?_⟩
  exact (ChunkSequence.actions_lookedTo _ _ _).trans hactions

/-- The chunks of a parse are tidy up to its position, and the forest of what they do has grown in
order up to there. -/
structure InStep (t : Task) (p : Parse) : Prop where
  tidy : Tidy p.chunks.chunks.toList p.pos
  grown : Grown (Ranges.start t.ranges) (PartialForest.empty.play p.chunks.actions) p.pos

theorem InStep.matchStep (hr : Ranges.Regular t.document t.ranges)
    (hbound : Document.length t.document < offsetBound) {p : Parse} (h : t.InStep p)
    (hspot : Ranges.Spot t.document t.ranges p.pos) (hlt : p.pos < Ranges.stop t.ranges) :
    t.InStep (Parse.matchStep t p) := by
  obtain ⟨hforward, -, -⟩ := stride_progress hr (a := p.point) hspot hlt
  obtain ⟨horder, hstop⟩ := inOrder_stride hr (a := p.point) hspot hlt
  obtain ⟨htidy, hactions⟩ := tidy_matchStep hr hbound h.tidy hspot hlt
  refine ⟨htidy, ?_⟩
  rw [hactions, PartialForest.play_append, Parse.pos_matchStep]
  exact h.grown.tokens horder (Nat.le_of_lt hforward) hstop

theorem kept_inStep (hr : Ranges.Regular t.document t.ranges) (hnone : t.fragments = [])
    (hbound : Document.length t.document < offsetBound) :
    Parse.Kept t fun p => t.Unaided p ∧ t.InStep p := by
  refine kept_scratch hr hnone (fun p _ hp => ⟨hp.tidy, hp.grown⟩) ?_ ?_
  · intro breakOff
    exact ⟨.nil _, PartialForest.grown_empty _⟩
  · intro p hp hlt hstep
    exact hstep.matchStep hr hbound hp.spot hlt

/-- The tree of a parse from scratch, of a document or of any ranges of it, and wherever it was
broken off: it goes up to where the parse stands, it is well nested, and the node found at a
position is the deepest there. -/
theorem tree_wellNested {grammar : Grammar} {document : String} {config : Config}
    (ht : t = fresh grammar document config ∨
      ∃ ranges, t = (fresh grammar document config).restrict ranges)
    (hbound : Document.length document < offsetBound) {p : Parse} {parsed : ParseResult}
    (hp : t.Comes p) (hparsed : (Parse.advance t p).2 = some parsed) :
    parsed.tree.start = Ranges.start t.ranges ∧ parsed.tree.stop = p.pos ∧
      parsed.tree.WellNested ∧ parsed.tree.FindsDeepest := by
  obtain ⟨hr, hnone, hdocument⟩ : Ranges.Regular t.document t.ranges ∧ t.fragments = [] ∧
      t.document = document := by
    rcases ht with rfl | ⟨ranges, rfl⟩
    · exact ⟨Ranges.regular_whole document, rfl, rfl⟩
    · exact ⟨(fresh grammar document config).regular_restrict ranges, rfl, rfl⟩
  rw [← hdocument] at hbound
  obtain ⟨⟨hunaided, htidy, hgrown⟩, rfl⟩ := hp.finished (kept_inStep hr hnone hbound) hparsed
  have hrow := hgrown.finish t.config.markUnfinished
  rw [← ChunkSequence.forest_assemble (fun c hc => htidy.start_le hc) htidy.keepsOwn] at hrow
  have hstop : p.start + (p.pos - p.start) = p.pos := by
    have := hrow.le
    rw [hunaided.start_eq]
    omega
  have hnested : (Parse.result t p).tree.Nested := by
    change Row p.start (Tree.forest (p.chunks.assemble p.pos t.config.markUnfinished))
      (p.start + (p.pos - p.start))
    rw [hstop, hunaided.start_eq]
    exact hrow
  exact ⟨hunaided.start_eq, hstop, hnested.wellNested, hnested.findsDeepest⟩

/-- Groups in two ranges, with a gap in the first group. -/
def gappedGroups : Task :=
  { fresh .groups "(a)(" {} with ranges := ⟨[⟨0, 1⟩, ⟨2, 4⟩]⟩ }

theorem gappedGroups_eq :
    gappedGroups = (fresh .groups "(a)(" {}).restrict [⟨0, 1⟩, ⟨2, 4⟩] := by
  have hfloor : Document.floor "(a)(" 0 = 0 ∧ Document.floor "(a)(" 1 = 1 ∧
      Document.floor "(a)(" 2 = 2 ∧ Document.floor "(a)(" 4 = 4 := by decide +kernel
  obtain ⟨h0, h1, h2, h4⟩ := hfloor
  simp [gappedGroups, restrict, fresh, h0, h1, h2, h4, IntervalSet.ofList, Interval.isEmpty,
    List.mergeSort, IntervalSet.joinAll, IntervalSet.join]

theorem tree_wellNested_gappedGroups :
    Document.length "(a)(" < offsetBound ∧ ∃ p parsed, gappedGroups.Comes p ∧
      (Parse.advance gappedGroups p).2 = some parsed ∧
      parsed.tree.start = Ranges.start gappedGroups.ranges ∧ parsed.tree.stop = p.pos ∧
      parsed.tree.WellNested ∧ parsed.tree.FindsDeepest := by
  have hbound : Document.length "(a)(" < offsetBound := by decide +kernel
  have hend : (gappedGroups.after (.replicate 4 none)).stage = .running ∧
      (gappedGroups.after (.replicate 4 none)).atEnd = true := by decide +kernel
  have hcomes : gappedGroups.Comes (gappedGroups.after (.replicate 4 none)) := ⟨_, none, rfl⟩
  have hparsed := Parse.advance_of_atEnd (t := gappedGroups) hend.1 hend.2
  exact ⟨hbound, _, _, hcomes, hparsed,
    tree_wellNested (.inr ⟨_, gappedGroups_eq⟩) hbound hcomes hparsed⟩

end Task

end RegionTree
