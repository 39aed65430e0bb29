import RegionTree.Proofs.Chunk.Replay
import RegionTree.Proofs.Grammar.Consumption
import RegionTree.Proofs.Parse.Path
set_option autoImplicit false

/-!
# Parsing again what did not change

A document that was parsed from scratch, as a whole or in ranges, is parsed again with the chunks
that were left behind, and nothing was edited.  The parse goes on from one of the chunks with a
state, with that chunk emptied, or it starts anew; and from there its strides lead to chunks with
the same outlines (`Leads`), wherever the cut is.

For a parse from scratch keeps what makes this so (`Replays.matchStep`): a cut at a chunk that was
there before a step leads to what was there before the step, and then the step leads on; and if the
step began with the chunk, the same step is made again there.
-/

namespace RegionTree

open ChunkSequence (Like Ready SameOutlines TokensFrom)

namespace Task

variable {t : Task}

/-! ## Strides -/

/-- The tokens of a stride are those of a step from its point. -/
theorem tokensFrom_stride (hr : Ranges.Regular t.document t.ranges) {a : Point}
    (ha : Ranges.Spot t.document t.ranges a.pos) (hlt : a.pos < Ranges.stop t.ranges) :
    TokensFrom a.pos (t.stride a).tokens := by
  obtain ⟨horder, -⟩ := inOrder_stride hr ha hlt
  suffices h : (∃ first rest, (t.stride a).tokens = first :: rest ∧ first.start = a.pos) ∧
      ∃ token ∈ (t.stride a).tokens, token.start < token.stop from ⟨h.1, horder, h.2⟩
  obtain ⟨front, c, back, hs, hfront⟩ :=
    ha.boundary.next (Nat.lt_of_lt_of_le hlt hr.boundary_stop.le)
  have hskip : ∀ reach,
      (∃ first rest, (t.skip a reach).tokens = first :: rest ∧ first.start = a.pos) ∧
        ∃ token ∈ (t.skip a reach).tokens, token.start < token.stop := by
    intro reach
    rw [next_skip hs hfront.symm]
    exact ⟨⟨_, [], rfl, rfl⟩, _, List.mem_singleton_self _,
      Nat.lt_add_of_pos_right c.utf8Size_pos⟩
  unfold stride
  cases hstep : t.stepFrom a with
  | none => exact hskip _
  | some step =>
    dsimp only
    split
    · exact hskip _
    · obtain ⟨before, part, rest, htext, hbefore, hpart, -, htiles⟩ :=
        stepFrom_consumes hr ha.boundary hstep
      have hlaid := (Window.shows_around hr a.pos t.config.marginBefore t.config.marginAfter).laid
      have hposition := startInDocument_position hr ha.boundary hstep
      obtain ⟨empties, solid, htokens, -, -, hne, hsolid⟩ := Grammar.stepAt_emptiesFirst hstep
      constructor
      · cases htaken : step.tokens with
        | nil => simp [htokens, hne] at htaken
        | cons first more =>
          rw [htaken] at htiles
          refine ⟨_, _, List.map_cons, ?_⟩
          rw [Parse.inDocument, htiles.1]
          exact hposition
      · obtain ⟨u, hu⟩ := List.exists_mem_of_ne_nil _ hne
        have hmem : u ∈ step.tokens := by simp [htokens, hu]
        obtain ⟨-, -, hstop⟩ := htiles.stop_le u hmem
        have hroom : u.stop ≤ Text.byteLength (t.window a.pos).text.toList := by
          rw [htext, Text.byteLength_append, Text.byteLength_append]
          omega
        have hlt := hlaid.startIn_lt_stopIn (Nat.zero_le u.start) (hsolid u hu)
          (by rwa [Nat.zero_add])
        exact ⟨_, List.mem_map_of_mem hmem, Nat.lt_of_lt_of_le hlt (Nat.le_max_left _ _)⟩

/-- The chunks after the stride from a point. -/
def extend (t : Task) (b : ChunkSequence) (a : Point) : ChunkSequence :=
  b.step a.state (t.stride a).tokens (t.stride a).reach

theorem chunks_matchStep (t : Task) (p : Parse) :
    (Parse.matchStep t p).chunks = t.extend p.chunks p.point := by
  obtain ⟨_, hstep⟩ := Parse.matchStep_eq t p
  rw [hstep]
  rfl

end Task

/-- The strides from a point, added to chunks, lead to chunks with the outlines of others and to
another point. -/
inductive Leads (t : Task) : ChunkSequence → Point → ChunkSequence → Point → Prop where
  | here {b b' : ChunkSequence} {a : Point} : Like b b' → Leads t b a b' a
  | step {b b' : ChunkSequence} {a a' : Point} : a.pos < Ranges.stop t.ranges →
      Leads t (t.extend b a) (t.stride a).next b' a' → Leads t b a b' a'

/-- Strides that lead to chunks lead on with the next stride. -/
theorem Leads.snoc {t : Task} (hr : Ranges.Regular t.document t.ranges) {b b' : ChunkSequence}
    {a a' : Point} (h : Leads t b a b' a') (hready : Ready b'.chunks.toList a'.pos)
    (hspot : Ranges.Spot t.document t.ranges a'.pos) (hlt : a'.pos < Ranges.stop t.ranges) :
    Leads t b a (t.extend b' a') (t.stride a').next := by
  induction h with
  | here hlike =>
    have htokens := Task.tokensFrom_stride hr hspot hlt
    exact .step hlt (.here (hlike.symm.step hready.toTidy htokens _ _).symm)
  | step hfirst _ ih => exact .step hfirst (ih hready hspot hlt)

/-! ## Where chunks may be cut -/

/-- A point to parse from again with some of the chunks: the start, without any, or the start of a
chunk with a state, which is emptied. -/
inductive CutAt (t : Task) (cs : List Chunk) : Point → List Chunk → Prop where
  | anew : CutAt t cs t.entry []
  | chunk {front back : List Chunk} {c : Chunk} {s : State} : cs = front ++ c :: back →
      c.state = some s → CutAt t cs ⟨c.start, s⟩ (front ++ [c.strip])

/-- Chunks with the same outlines are cut at the same points. -/
theorem CutAt.sameOutlines {t : Task} {cs cs' ds : List Chunk} {a : Point} (h : CutAt t cs a ds)
    (hsame : SameOutlines cs' cs) : ∃ ds', CutAt t cs' a ds' ∧ SameOutlines ds' ds := by
  cases h with
  | anew => exact ⟨[], .anew, .refl []⟩
  | @chunk front back c s hcs hc =>
    rw [SameOutlines, hcs, List.map_append, List.map_cons] at hsame
    obtain ⟨front', rest, rfl, hfront, hrest⟩ := List.map_eq_append_iff.mp hsame.symm
    obtain ⟨c', back', rfl, hc', -⟩ := List.map_eq_cons_iff.mp hrest
    obtain ⟨hstart, -, -, -, -, hstate, -⟩ := Chunk.outline_eq_iff.mp hc'
    have hcut : CutAt t (front' ++ c' :: back') ⟨c'.start, s⟩ (front' ++ [c'.strip]) :=
      .chunk rfl (hstate.trans hc)
    rw [hstart] at hcut
    refine ⟨_, hcut, SameOutlines.append hfront.symm (.single ?_)⟩
    rw [Chunk.strip, Chunk.strip, hstart, hstate]

/-- A parse that strides lead to from wherever its chunks may be cut. -/
structure Parse.Replays (t : Task) (p : Parse) : Prop where
  ready : Ready p.chunks.chunks.toList p.pos
  capacity : p.chunks.capacity = max t.config.chunkCapacity 1
  leads : ∀ {a : Point} {ds : List Chunk}, CutAt t p.chunks.chunks.toList a ds →
    Ranges.Spot t.document t.ranges a.pos ∧ ∀ b : ChunkSequence,
      b.capacity = p.chunks.capacity → SameOutlines ds b.chunks.toList →
      Leads t b a p.chunks p.point

/-- A step of matching is led to from wherever its chunks may be cut: where they could be cut before
it, or where it began. -/
theorem Parse.Replays.matchStep {t : Task} (hr : Ranges.Regular t.document t.ranges) {p : Parse}
    (h : p.Replays t) (hspot : Ranges.Spot t.document t.ranges p.pos)
    (hlt : p.pos < Ranges.stop t.ranges) : (Parse.matchStep t p).Replays t := by
  have htokens := Task.tokensFrom_stride hr (a := p.point) hspot hlt
  obtain ⟨-, hstop⟩ := Task.inOrder_stride hr (a := p.point) hspot hlt
  have hcapacity : (t.extend p.chunks p.point).capacity = p.chunks.capacity :=
    ChunkSequence.capacity_step ..
  refine ⟨?_, ?_, ?_⟩
  · rw [Task.chunks_matchStep, pos_matchStep]
    exact h.ready.step htokens hstop _ _
  · rw [Task.chunks_matchStep, hcapacity, h.capacity]
  · intro a ds hcut
    rw [Task.chunks_matchStep] at hcut ⊢
    rw [point_matchStep, hcapacity]
    have hon : ∀ {a : Point} {ds : List Chunk}, CutAt t p.chunks.chunks.toList a ds →
        Ranges.Spot t.document t.ranges a.pos ∧ ∀ b : ChunkSequence,
          b.capacity = p.chunks.capacity → SameOutlines ds b.chunks.toList →
          Leads t b a (t.extend p.chunks p.point) (t.stride p.point).next := by
      intro a ds hbefore
      obtain ⟨ha, hleads⟩ := h.leads hbefore
      exact ⟨ha, fun b hb hds => (hleads b hb hds).snoc hr h.ready hspot hlt⟩
    cases hcut with
    | anew => exact hon .anew
    | @chunk front back c s hcs hc =>
      rcases ChunkSequence.step_cut h.ready htokens hcs hc with
        ⟨e, rest, hbefore, hstart, hstate⟩ | ⟨hstart, rfl, hagain⟩
      · have hthere := CutAt.chunk (t := t) hbefore (hstate.trans hc)
        rw [Chunk.strip, hstart, hstate] at hthere
        exact hon hthere
      · rw [hstart]
        exact ⟨hspot, fun b hb hds => .step hlt (.here (hagain b hb hds))⟩

namespace Task

variable {t : Task}

theorem kept_replays (hr : Ranges.Regular t.document t.ranges) (hnone : t.fragments = []) :
    Parse.Kept t fun p => t.Unaided p ∧ p.Replays t := by
  refine kept_scratch hr hnone (fun p _ hp => ⟨hp.1, hp.2, hp.3⟩) ?_ ?_
  · intro breakOff
    refine ⟨⟨.nil _, fun c hc => by cases hc⟩, rfl, ?_⟩
    intro a ds hcut
    cases hcut with
    | anew => exact ⟨hr.spot_start, fun b hb hds => .here ⟨hb.symm, hds.symm⟩⟩
    | @chunk front _ _ _ hcs _ =>
      rw [show (t.opened breakOff).chunks.chunks.toList = [] from rfl] at hcs
      simp at hcs
  · intro p hp hlt hreplays
    exact hreplays.matchStep hr hp.spot hlt

end Task

/-! ## A parse made again -/

/-- Strides that have come to the end lead nowhere else. -/
theorem Leads.like {t : Task} {b b' : ChunkSequence} {a a' : Point} (h : Leads t b a b' a')
    (hend : Ranges.stop t.ranges ≤ a.pos) : Like b b' ∧ a' = a := by
  cases h with
  | here hlike => exact ⟨hlike, rfl⟩
  | step hlt _ => omega

/-- Strides that lead to the end do so after the next stride. -/
theorem Leads.tail {t : Task} {b b' : ChunkSequence} {a a' : Point} (h : Leads t b a b' a')
    (hlt : a.pos < Ranges.stop t.ranges) (hend : Ranges.stop t.ranges ≤ a'.pos) :
    Leads t (t.extend b a) (t.stride a).next b' a' := by
  cases h with
  | here _ => omega
  | step _ hrest => exact hrest

namespace Parse

theorem capacity_init (t : Task) (breakOff : Option Nat) :
    (init t { t.begin with breakOff }).chunks.capacity = max t.config.chunkCapacity 1 := by
  unfold init
  dsimp only
  split
  · rfl
  · unfold keepLeft
    dsimp only
    split
    · rfl
    · dsimp only
      obtain ⟨pos, state, hresume, -⟩ := resume_eq _ _ _
      rw [hresume]
      rfl

/-- A parse whose strides lead to where another has come. -/
structure Rejoins (t : Task) (p last : Parse) : Prop where
  start_eq : p.start = Ranges.start t.ranges
  stop_eq : p.stop = Ranges.stop t.ranges
  spot : Ranges.Spot t.document t.ranges p.pos
  keepsOwn : ∀ c ∈ p.chunks.chunks.toList, c.KeepsOwn
  leads : Leads t p.chunks p.point last.chunks last.point

/-- What a finished parse leaves has the outlines of its chunks. -/
theorem sameOutlines_result (t : Task) (p : Parse) :
    SameOutlines p.chunks.chunks.toList (result t p).chunks.chunks.toList := by
  rw [SameOutlines, result, ChunkSequence.remember, Array.toList_mapIdx]
  apply List.ext_getElem (by simp)
  intro i h₁ h₂
  rw [List.getElem_map, List.getElem_map, List.getElem_mapIdx]
  split
  · exact Chunk.outline_remember _
  · rfl

/-- A parse that is begun with chunks starts where they may be cut. -/
theorem Begun.cutAt {t : Task} {fragments : List Fragment} {cs ds : List Chunk} {a : Point}
    {old : Option ChunkSequence} (h : Begun (t.reuse fragments none) a ds old)
    (hall : ∀ f ∈ fragments, SameOutlines cs f.chunks.chunks.toList) :
    ∃ ds', CutAt t cs a ds' ∧ SameOutlines ds' ds := by
  cases h with
  | anew _ => exact ⟨[], .anew, .refl []⟩
  | kept hf hchunks hc _ _ => exact (CutAt.chunk hchunks hc).sameOutlines (hall _ hf)

theorem Begun.keepsOwn {t : Task} {a : Point} {ds : List Chunk} {old : Option ChunkSequence}
    (h : Begun t a ds old) (hall : ∀ f ∈ t.fragments, ∀ c ∈ f.chunks.chunks.toList, c.KeepsOwn) :
    ∀ c ∈ ds, c.KeepsOwn := by
  cases h with
  | anew _ => simp
  | @kept f front back c s right hf hchunks hc _ _ =>
    intro e he
    rcases List.mem_append.mp he with he | he
    · exact hall f hf e (by simp [hchunks, he])
    · rw [List.mem_singleton.mp he]
      simp [Chunk.KeepsOwn, Chunk.strip, Chunk.empty]

end Parse

namespace Task

variable {t : Task} {last : Parse} {fragments : List Fragment}

/-- Through all that a parse does that is made again, its strides lead to where the parse before
has come. -/
theorem kept_rejoins (hr : Ranges.Regular t.document t.ranges)
    (hsight : Document.length t.document + t.config.marginBefore ≤ maxPosition)
    (hlast : last.Replays t) (hend : Ranges.stop t.ranges ≤ last.pos)
    (hfragments : ∀ f ∈ fragments, f.chunks = (Parse.result t last).chunks) :
    Parse.Kept (t.reuse fragments none) fun p =>
      p.edit = (t.reuse fragments none).begin.edit ∧ p.Rejoins t last where
  breakOff p _ hp := ⟨hp.1, hp.2.1, hp.2.2, hp.2.3, hp.2.4, hp.2.5⟩
  begun breakOff := by
    have hcapacity := Parse.capacity_init (t.reuse fragments none) breakOff
    obtain ⟨pos, state, chunks, checkpoint, old, stats, hinit, -, hbegun⟩ :=
      Parse.init_eq (t.reuse fragments none) breakOff
    rw [hinit] at hcapacity ⊢
    have hsame : ∀ f ∈ fragments,
        SameOutlines last.chunks.chunks.toList f.chunks.chunks.toList := by
      intro f hf
      rw [hfragments f hf]
      exact Parse.sameOutlines_result t last
    obtain ⟨ds, hcut, hds⟩ := hbegun.cutAt hsame
    obtain ⟨hspot, hleads⟩ := hlast.leads hcut
    refine ⟨rfl, rfl, rfl, hspot, hbegun.keepsOwn ?_, hleads chunks ?_ hds⟩
    · intro f hf
      rw [hfragments f hf]
      intro c hc
      obtain ⟨e, he, hrevised⟩ := ChunkSequence.exists_of_revised
        (ChunkSequence.revised_remember last.chunks last.pos) hc
      exact hrevised.keepsOwn (hlast.ready.keepsOwn e he)
    · rw [hlast.capacity]
      exact hcapacity
  spliced p old index hp hatEnd hlook :=
    absurd hlook (Parse.outlook_ne_take (t := t.reuse fragments none) hr rfl hsight hp.2.stop_eq
      hp.1 hatEnd old index)
  stepped p old hp hatEnd _ := by
    obtain ⟨hedit, hrejoins⟩ := hp
    have hlt := Parse.lt_stop_of_not_atEnd hatEnd
    rw [hrejoins.stop_eq] at hlt
    obtain ⟨-, hspot, -⟩ := stride_progress hr (a := p.point) hrejoins.spot hlt
    obtain ⟨_, hstep⟩ := Parse.matchStep_eq (t.reuse fragments none) { p with old }
    rw [hstep]
    refine ⟨hedit, hrejoins.start_eq, hrejoins.stop_eq, hspot, ?_, hrejoins.leads.tail hlt hend⟩
    exact ChunkSequence.keepsOwn_step hrejoins.keepsOwn _ _ _

theorem steers_rejoins (hr : Ranges.Regular t.document t.ranges)
    (hsight : Document.length t.document + t.config.marginBefore ≤ maxPosition)
    (hlast : last.Replays t) (hend : Ranges.stop t.ranges ≤ last.pos)
    (hfragments : ∀ f ∈ fragments, f.chunks = (Parse.result t last).chunks) :
    (t.reuse fragments none).Steers := by
  refine steers_of_kept hr (kept_rejoins hr hsight hlast hend hfragments) ?_
  rintro p ⟨hedit, hrejoins⟩
  refine ⟨hrejoins.stop_eq, hrejoins.spot, fun old index hatEnd => ?_⟩
  exact Parse.outlook_ne_take (t := t.reuse fragments none) hr rfl hsight hrejoins.stop_eq hedit
    hatEnd old index

end Task

/-- A parse that has come to where another has, with chunks that look the same, has the same
tree. -/
theorem Parse.tree_eq_of_like {t : Task} {p p' : Parse} (hlike : Like p.chunks p'.chunks)
    (hstart : ∀ c ∈ p.chunks.chunks.toList, c.start ≤ p.pos)
    (hkept : ∀ c ∈ p.chunks.chunks.toList, c.KeepsOwn)
    (hkept' : ∀ c ∈ p'.chunks.chunks.toList, c.KeepsOwn) (hpos : p'.pos = p.pos)
    (hbegin : p'.start = p.start) : (result t p').tree = (result t p).tree := by
  have hactions : p'.chunks.actions = p.chunks.actions := hlike.chunks.actions_eq
  have hstart' : ∀ c ∈ p'.chunks.chunks.toList, c.start ≤ p'.pos := by
    intro c' hc'
    obtain ⟨c, hc, hsame⟩ := hlike.chunks.exists_of_mem hc'
    rw [hpos, (Chunk.outline_eq_iff.mp hsame).1]
    exact hstart c hc
  rw [tree_result t hstart hkept, tree_result t hstart' hkept', hactions, hpos, hbegin]

namespace Task

/-- A document that did not change, parsed again as a whole or in the same ranges with the chunks of
a parse from scratch, leaves chunks that are the same one by one, and the same tree. -/
theorem reuse_unedited {grammar : Grammar} {document : String} {config : Config} {t : Task}
    (ht : t = fresh grammar document config ∨
      ∃ ranges, t = (fresh grammar document config).restrict ranges)
    (hsight : Document.length document + config.marginBefore ≤ maxPosition) :
    ∃ p parsed, t.run = some (p, parsed) ∧ ∀ start stop, ∃ q again,
      (t.reuse [⟨parsed.chunks, start, stop⟩] none).run = some (q, again) ∧
      again.chunks.chunks.toList.map Chunk.outline =
        parsed.chunks.chunks.toList.map Chunk.outline ∧
      again.tree = parsed.tree := by
  obtain ⟨ranges, rfl⟩ : ∃ ranges, t = (fresh grammar document config).restrict ranges := by
    rcases ht with rfl | hranges
    · exact ⟨_, fresh_eq_restrict ..⟩
    · exact hranges
  have hscratch := steers_restrict grammar document config ranges
  generalize ht : (fresh grammar document config).restrict ranges = t at hscratch ⊢
  obtain ⟨hnone, hdocument, hconfig⟩ :
      t.fragments = [] ∧ t.document = document ∧ t.config = config := by
    subst ht
    exact ⟨rfl, rfl, rfl⟩
  rw [← hdocument, ← hconfig] at hsight
  have hr := hscratch.regular
  obtain ⟨p, last, hrun, ⟨hunaided, hlast⟩, hend⟩ := hscratch.run_eq (kept_replays hr hnone)
  rw [hunaided.stop_eq] at hend
  refine ⟨p, _, hrun, fun start stop => ?_⟩
  have hfragments : ∀ f ∈ [(⟨(Parse.result t last).chunks, start, stop⟩ : Fragment)],
      f.chunks = (Parse.result t last).chunks := by
    intro f hf
    rw [List.mem_singleton.mp hf]
  have hagain := steers_rejoins hr hsight hlast hend hfragments
  obtain ⟨q, last', hrun', ⟨-, hrejoins⟩, hend'⟩ :=
    hagain.run_eq (kept_rejoins hr hsight hlast hend hfragments)
  rw [hrejoins.stop_eq] at hend'
  obtain ⟨hlike, hpoint⟩ := hrejoins.leads.like hend'
  have hpos : last.pos = last'.pos := congrArg Point.pos hpoint
  refine ⟨q, _, hrun', ?_, ?_⟩
  · have hthere := Parse.sameOutlines_result t last
    exact (hthere.symm.trans hlike.chunks.symm).trans (Parse.sameOutlines_result _ last')
  · exact Parse.tree_eq_of_like hlike.symm (fun c hc => hlast.ready.start_le hc)
      hlast.ready.keepsOwn hrejoins.keepsOwn hpos.symm
      (hrejoins.start_eq.trans hunaided.start_eq.symm)

theorem reuse_unedited_gappedGroups :
    Document.length "(a)(" + ({} : Config).marginBefore ≤ maxPosition ∧
      ∃ p parsed, gappedGroups.run = some (p, parsed) ∧ ∀ start stop, ∃ q again,
        (gappedGroups.reuse [⟨parsed.chunks, start, stop⟩] none).run = some (q, again) ∧
        again.chunks.chunks.toList.map Chunk.outline =
          parsed.chunks.chunks.toList.map Chunk.outline ∧
        again.tree = parsed.tree := by
  have hsight : Document.length "(a)(" + ({} : Config).marginBefore ≤ maxPosition := by
    decide +kernel
  exact ⟨hsight, reuse_unedited (.inr ⟨_, gappedGroups_eq⟩) hsight⟩

end Task

end RegionTree
