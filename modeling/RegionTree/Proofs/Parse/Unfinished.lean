import RegionTree.Proofs.Chunk.Closing
import RegionTree.Proofs.Chunk.Unfinished
import RegionTree.Proofs.Parse.Spans
set_option autoImplicit false

/-!
# Regions that are open at the end

The tokens of a stride push and pop the nodes of the open regions as the grammar does, so the layers
of the forest that a parse from scratch has made are the nodes of the regions of its state.  So, in
the tree of the parse, the regions that were not closed are marked, and no other node is, as long as
the grammar does not use the node of the marks itself (`Task.marks_unfinished`).
-/

namespace RegionTree

/-! ## Strides -/

/-- What a token does is of the kind of its nodes. -/
theorem Token.NodesIn.within {Q : NodeId → Prop} {t : Token} (h : t.NodesIn Q) :
    ∀ a ∈ t.actions, a.Within (fun id _ => Q id) (Tree.NodesIn Q) := by
  intro a ha
  rw [actions, List.mem_append, List.mem_append] at ha
  rcases ha with (ha | ha) | ha
  · obtain ⟨id, hid, rfl⟩ := List.mem_map.mp ha
    exact h.opens id hid
  · obtain ⟨id, hid, rfl⟩ := List.mem_map.mp ha
    exact Tree.nodesIn_node.mpr ⟨h.node id (Option.mem_toList.mp hid), by simp⟩
  · obtain ⟨id, -, rfl⟩ := List.mem_map.mp ha
    exact trivial

namespace Task

variable {t : Task}

/-- A stride does to the nodes of the open regions what its tokens do. -/
theorem playAll_stride (a : Point) :
    Token.playAll (t.stride a).tokens a.state.openNodes =
      some (t.stride a).next.state.openNodes := by
  have hskip : Token.playAll (t.skip a (t.reachFrom a.pos)).tokens a.state.openNodes =
      some a.state.openNodes :=
    Token.playAll_of_flat (List.forall_mem_singleton.mpr (Token.isFlat_plain ..)) _
  unfold stride
  cases hstep : t.stepFrom a with
  | none => exact hskip
  | some step =>
    dsimp only
    split
    · exact hskip
    · have hmap : (step.tokens.map (Parse.inDocument (t.window a.pos))).map Grammar.nodesOf =
          step.tokens.map Grammar.nodesOf := List.map_map
      exact (Grammar.playAll_congr hmap _).trans (Grammar.stepAt_mirrors hstep)

/-- The nodes of a stride are nodes that the grammar names, or that of a skipped character. -/
theorem nodesIn_stride {Q : NodeId → Prop} (hgrammar : t.grammar.NodesIn Q) (herror : Q .error)
    (a : Point) : ∀ token ∈ (t.stride a).tokens, token.NodesIn Q := by
  have hskip : ∀ token ∈ (t.skip a (t.reachFrom a.pos)).tokens, token.NodesIn Q := by
    refine List.forall_mem_singleton.mpr (Token.nodesIn_plain ?_ _ _)
    rintro _ ⟨⟩
    exact herror
  unfold stride
  cases hstep : t.stepFrom a with
  | none => exact hskip
  | some step =>
    dsimp only
    split
    · exact hskip
    · intro token htoken
      obtain ⟨found, hfound, rfl⟩ := List.mem_map.mp htoken
      have hnodes := hgrammar.stepAt hstep found hfound
      exact ⟨hnodes.node, hnodes.opens⟩

/-! ## Open regions -/

/-- The layers of the forest that a parse has made are its open regions, and no node of the forest
is the mark of an unfinished one. -/
structure Open (p : Parse) : Prop where
  layers : (PartialForest.empty.play p.chunks.actions).layers.map Layer.node = p.state.openNodes
  unmarked : (PartialForest.empty.play p.chunks.actions).Holds (fun id _ => id ≠ .incomplete)
    Tree.Unmarked

theorem Open.clean {p : Parse} (h : Open p) :
    PartialForest.Clean (PartialForest.empty.play p.chunks.actions).layers.reverse :=
  fun l hl => h.unmarked.layers l (List.mem_reverse.mp hl)

/-- The tree of a parse at its end has the trees of the forest that its chunks make. -/
theorem InStep.tree_result {p : Parse} (h : t.InStep p) :
    (Parse.result t p).tree = .node .document p.start (p.start + (p.pos - p.start))
      ((PartialForest.empty.play p.chunks.actions).finish p.pos t.config.markUnfinished).trees := by
  rw [← ChunkSequence.forest_assemble (fun c hc => h.tidy.start_le hc) h.tidy.keepsOwn]
  rfl

theorem wraps_unmarked : Wraps (fun id _ => id ≠ .incomplete) Tree.Unmarked := by
  intro id start stop kids hid hkids
  exact Tree.nodesIn_node.mpr ⟨hid, hkids⟩

theorem kept_open (hr : Ranges.Regular t.document t.ranges) (hnone : t.fragments = [])
    (hbound : Document.length t.document < offsetBound)
    (hgrammar : t.grammar.NodesIn (· ≠ .incomplete)) :
    Parse.Kept t fun p => t.Unaided p ∧ t.InStep p ∧ Open p := by
  refine kept_scratch hr hnone (fun p _ hp => ⟨⟨hp.1.tidy, hp.1.grown⟩, ⟨hp.2.layers, hp.2.unmarked⟩⟩)
    ?_ ?_
  · intro breakOff
    exact ⟨⟨.nil _, PartialForest.grown_empty _⟩, ⟨rfl, PartialForest.holds_empty⟩⟩
  · rintro p hp hlt ⟨hstep, hopen⟩
    obtain ⟨-, hactions⟩ := tidy_matchStep hr hbound hstep.tidy hp.spot hlt
    obtain ⟨_, heq⟩ := Parse.matchStep_eq t p
    have hplay := t.playAll_stride p.point
    have hnodes := nodesIn_stride hgrammar (by decide) p.point
    refine ⟨hstep.matchStep hr hbound hp.spot hlt, ?_, ?_⟩
    · rw [hactions, PartialForest.play_append, heq]
      refine PartialForest.map_node_play ?_
      rw [hopen.layers]
      exact hplay
    · rw [hactions, PartialForest.play_append]
      refine hopen.unmarked.play wraps_unmarked fun a ha => ?_
      obtain ⟨token, htoken, ha⟩ := List.mem_flatMap.mp ha
      exact (hnodes token htoken).within a ha

/-! ## With marks and without -/

/-- The task with another treatment of unfinished regions. -/
def withMarks (t : Task) (mark : Bool) : Task :=
  { t with config := t.config.withMarkUnfinished mark }

/-- How unfinished regions are treated makes no difference before the end. -/
theorem advance_withMarks (t : Task) (mark : Bool) (p : Parse) :
    (Parse.advance (t.withMarks mark) p).1 = (Parse.advance t p).1 := by
  unfold Parse.advance
  cases p.stage with
  | fresh => rfl
  | finished => rfl
  | running =>
    dsimp only
    split
    · rfl
    · have hlook : Parse.outlook (t.withMarks mark) p = Parse.outlook t p := rfl
      rw [hlook]
      cases Parse.outlook t p with
      | wait => rfl
      | giveUp => rfl
      | take old index => rfl

theorem Comes.withMarks {p : Parse} (h : t.Comes p) (mark : Bool) : (t.withMarks mark).Comes p := by
  obtain ⟨requests, request, rfl⟩ := h
  have hgo : ∀ (requests : List (Option Nat)) (p : Parse),
      p.go (t.withMarks mark) requests = p.go t requests := by
    intro requests p
    exact List.foldl_ext _ _ _ fun q _ _ => advance_withMarks t mark _
  exact ⟨requests, request, by rw [after, after, hgo]; rfl⟩

/-- The tree of a parse from scratch, of a document or of any ranges of it, and wherever it was
broken off: the nodes that are marked are those of the regions open at the end, from the outermost
on, each with one mark behind all else in it.  Without marks the tree is the same, but for the marks
and the nodes that carry them, whose other children are in their place. -/
theorem marks_unfinished {grammar : Grammar} {document : String} {config : Config}
    (ht : t = fresh grammar document config ∨
      ∃ ranges, t = (fresh grammar document config).restrict ranges)
    (hmark : config.markUnfinished = true) (hgrammar : grammar.NodesIn (· ≠ .incomplete))
    (hbound : Document.length document < offsetBound) {p : Parse} {parsed : ParseResult}
    (hp : t.Comes p) (hparsed : (Parse.advance t p).2 = some parsed) :
    parsed.tree.Marked p.pos (p.state.frames.filterMap Frame.node) ∧
      ∃ bare, (t.withMarks false).Comes p ∧
        (Parse.advance (t.withMarks false) p).2 = some bare ∧ parsed.tree.dissolve = [bare.tree] := by
  obtain ⟨hr, hnone, rfl, rfl, rfl⟩ : Ranges.Regular t.document t.ranges ∧ t.fragments = [] ∧
      t.document = document ∧ t.config = config ∧ t.grammar = grammar := by
    rcases ht with rfl | ⟨ranges, rfl⟩
    · exact ⟨Ranges.regular_whole document, rfl, rfl, rfl, rfl⟩
    · exact ⟨(fresh grammar document config).regular_restrict ranges, rfl, rfl, rfl, rfl⟩
  obtain ⟨hrunning, hend, -⟩ := Parse.advance_eq_some hparsed
  obtain ⟨⟨-, hstep, hopen⟩, rfl⟩ := hp.finished (kept_open hr hnone hbound hgrammar) hparsed
  have hclean := hopen.clean
  -- Both trees come from the forest of the same chunks; only how it is ended differs.
  have htree := hstep.tree_result
  rw [hmark, PartialForest.trees_finish_true] at htree
  have hbare := InStep.tree_result (t := t.withMarks false) ⟨hstep.tidy, hstep.grown⟩
  rw [show (t.withMarks false).config.markUnfinished = false from rfl,
    PartialForest.trees_finish_false] at hbare
  have hids : (PartialForest.empty.play p.chunks.actions).layers.reverse.map Layer.node =
      p.state.frames.filterMap Frame.node := by
    rw [List.map_reverse, hopen.layers, State.filterMap_frames]
  refine ⟨?_, _, hp.withMarks false, Parse.advance_of_atEnd hrunning hend, ?_⟩
  · rw [htree, ← hids]
    exact PartialForest.marked_document hopen.unmarked.base hclean _ _
  · rw [htree, hbare]
    exact PartialForest.dissolve_document hopen.unmarked.base hclean _ _

theorem nodesIn_groups : Grammar.groups.NodesIn (· ≠ .incomplete) where
  rules := by simp [Grammar.groups]
  captures := by simp [Grammar.groups]
  functions := by simp [Grammar.groups]
  scopes := by
    have hgroup : (⟨3⟩ : NodeId) ≠ .incomplete := by decide
    simpa [Grammar.groups] using hgroup
  fallback := by decide

theorem marks_unfinished_gappedGroups :
    Document.length "(a)(" < offsetBound ∧ Grammar.groups.NodesIn (· ≠ .incomplete) ∧
      ∃ p parsed, gappedGroups.Comes p ∧ (Parse.advance gappedGroups p).2 = some parsed ∧
        p.state.frames.filterMap Frame.node = [⟨3⟩] ∧ parsed.tree.Marked p.pos [⟨3⟩] ∧
        ∃ bare, (gappedGroups.withMarks false).Comes p ∧
          (Parse.advance (gappedGroups.withMarks false) p).2 = some bare ∧
          parsed.tree.dissolve = [bare.tree] := by
  have hbound : Document.length "(a)(" < offsetBound := by decide +kernel
  have hend : (gappedGroups.after (.replicate 4 none)).stage = .running ∧
      (gappedGroups.after (.replicate 4 none)).atEnd = true := by decide +kernel
  have hopen : (gappedGroups.after (.replicate 4 none)).state.frames.filterMap Frame.node =
      [⟨3⟩] := by decide +kernel
  have hcomes : gappedGroups.Comes (gappedGroups.after (.replicate 4 none)) := ⟨_, none, rfl⟩
  have hparsed := Parse.advance_of_atEnd (t := gappedGroups) hend.1 hend.2
  obtain ⟨hmarked, hbare⟩ :=
    marks_unfinished (.inr ⟨_, gappedGroups_eq⟩) rfl nodesIn_groups hbound hcomes hparsed
  rw [hopen] at hmarked
  exact ⟨hbound, nodesIn_groups, _, _, hcomes, hparsed, hopen, hmarked, hbare⟩

end Task

end RegionTree
