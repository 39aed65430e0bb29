import RegionTree.Proofs.Chunk.Relabel
import RegionTree.Proofs.Document.Excerpt
import RegionTree.Proofs.Parse.Path
set_option autoImplicit false

/-!
# Ranges as one text

A parse whose margins reach over the document sees the ranges as one text, the excerpt, from
wherever it stands.  So its strides are those of a parse of the excerpt, but for their places
(`Task.Overlooks.stride_eq`), its path is one through the excerpt (`Path.excerpt`), and its tree is
the tree of the excerpt, if each position of the document is replaced by its rank
(`Task.run_excerpt`).
-/

namespace RegionTree

open Text (Boundary byteLength takeBytes dropBytes)
open Ranges (rank excerpt)

/-- A token and one at other places do the same, but for the places. -/
theorem Token.actions_relabel {f : Nat → Nat} {t u : Token} (hopens : u.opens = t.opens)
    (hnode : u.node = t.node) (hcloses : u.closes = t.closes) (hstart : f u.start = t.start)
    (hstop : f u.stop = t.stop) : u.actions.map (Action.relabel f) = t.actions := by
  rw [actions, actions, hopens, hnode, hcloses]
  simp [Function.comp_def, Action.relabel, hstart, hstop]

namespace Task

/-- A task whose margins reach over the document. -/
structure Overlooks (t : Task) : Prop where
  regular : Ranges.Regular t.document t.ranges
  before : Document.length t.document ≤ t.config.marginBefore
  after : Document.length t.document ≤ t.config.marginAfter

variable {t : Task}

theorem Overlooks.window_eq (h : t.Overlooks) {pos : Nat}
    (hpos : pos ≤ Document.length t.document) :
    t.window pos = ⟨excerpt t.document t.ranges, Window.piecesOf 0 t.ranges.intervals⟩ := by
  have hstop := h.regular.boundary_stop.le
  rw [← Document.length_eq] at hstop
  exact Window.around_excerpt h.regular (Nat.le_trans hpos h.before)
    (Nat.le_trans hstop h.after)

/-- A stride is a step through the excerpt, with the ranks of its positions. -/
theorem Overlooks.stride_eq (h : t.Overlooks) {a : Point}
    (ha : Ranges.Spot t.document t.ranges a.pos) (hlt : a.pos < Ranges.stop t.ranges) :
    ∃ step, t.grammar.stepAt a.state
          (.atByte (excerpt t.document t.ranges).toList (rank t.ranges a.pos)) = some step ∧
      (t.stride a).actions.map (Action.relabel (rank t.ranges)) =
        step.tokens.flatMap Token.actions ∧
      rank t.ranges (t.stride a).next.pos = rank t.ranges a.pos + step.length ∧
      (t.stride a).next.state = step.state := by
  have hend : a.pos < byteLength t.document.toList :=
    Nat.lt_of_lt_of_le hlt h.regular.boundary_stop.le
  obtain ⟨front, c, back, hs, hfront⟩ := ha.boundary.next hend
  have hlength : Document.length t.document =
      byteLength front + (c.utf8Size + byteLength back) := by
    rw [Document.length_eq, hs, Text.byteLength_append, Text.byteLength_cons]
  have hafter := h.after
  obtain ⟨step, hstep, hland⟩ := exists_stepFrom h.regular ha hlt hs hfront (by omega)
  obtain ⟨before, part, rest, htext, hbefore, hpart, -, htiles⟩ :=
    stepFrom_consumes h.regular ha.boundary hstep
  have hwindow : t.window a.pos =
      ⟨excerpt t.document t.ranges, Window.piecesOf 0 t.ranges.intervals⟩ := h.window_eq (by omega)
  have hin : Ranges.Holds t.ranges a.pos := ha.inside.resolve_right (by omega)
  have hne : t.ranges.intervals ≠ [] := by
    obtain ⟨i, hi, -⟩ := hin
    exact List.ne_nil_of_mem hi
  obtain ⟨hposition, -, -⟩ := Window.boundary_rank h.regular ha.boundary hin
  have hfits : rank t.ranges a.pos + step.length ≤
      Document.length (excerpt t.document t.ranges) := by
    rw [hwindow, hposition] at hbefore
    rw [hwindow] at htext
    rw [Document.length_eq, htext, Text.byteLength_append, Text.byteLength_append]
    omega
  have hnot : ¬ t.landing a.pos step ≤ a.pos := Nat.not_le_of_lt hland
  rw [stride, hstep]
  dsimp only
  rw [if_neg hnot]
  rw [hwindow, hposition] at htiles
  refine ⟨step, ?_, ?_, ?_, rfl⟩
  · rw [stepFrom, hwindow, hposition] at hstep
    exact hstep
  · rw [Stride.actions, List.flatMap_map, List.map_flatMap]
    refine List.flatMap_congr ?_
    intro token htoken
    obtain ⟨-, hmid, hhigh⟩ := htiles.stop_le token htoken
    have hstart := Window.rank_startIn h.regular hne (n := token.start) (by omega)
    have hstop := Window.rank_stopIn h.regular hne (n := token.stop) (by omega)
    rw [hwindow]
    refine Token.actions_relabel rfl rfl rfl hstart ?_
    -- the rank of the later of two positions is the greater of the ranks
    have hmax : Monotone (rank t.ranges) := fun _ _ hle => Ranges.rankIn_mono hle _
    have hranks := hmax.map_max
      (a := Window.stopIn (Window.piecesOf 0 t.ranges.intervals) token.stop)
      (b := Window.startIn (Window.piecesOf 0 t.ranges.intervals) token.start)
    rw [hstart, hstop, Nat.max_eq_left hmid] at hranks
    exact hranks
  · dsimp only
    rw [landing, hwindow, hposition, Ranges.rank_clamp h.regular.separated]
    exact Window.rank_startIn h.regular hne hfits

/-- The same in a whole text, where every position is its own rank. -/
theorem Overlooks.stride_whole (h : t.Overlooks) (hwhole : t.IsWhole) {a : Point}
    (ha : Boundary t.document.toList a.pos) (hlt : a.pos < Document.length t.document)
    {step : MatchStep} (hstep : t.grammar.stepAt a.state (.atByte t.document.toList a.pos) =
      some step) :
    (t.stride a).actions = step.tokens.flatMap Token.actions ∧
      (t.stride a).next = ⟨a.pos + step.length, step.state⟩ := by
  have hbefore := h.before
  have hafter := h.after
  rw [Document.length_eq] at hlt hbefore hafter
  obtain ⟨front, c, back, hs, hfront⟩ := ha.next hlt
  rw [hs, Text.byteLength_append] at hbefore hafter
  have hfull : dropBytes (byteLength front - t.config.marginBefore) front = front := by
    have hall := Text.takeBytes_append_dropBytes 0 front
    have hnone : takeBytes 0 front = [] := Text.takeBytes_byteLength [] front
    rw [hnone, List.nil_append] at hall
    rw [Nat.sub_eq_zero_of_le (by omega), hall]
  have hrest : takeBytes t.config.marginAfter (c :: back) = c :: back := by
    have hall := Text.takeBytes_append_of_le (a := c :: back) (n := t.config.marginAfter) (b := [])
      (by omega)
    rw [List.append_nil, Text.takeBytes_nil, List.append_nil] at hall
    exact hall
  rw [hs, ← hfront, Text.Place.atByte_append] at hstep
  rw [Task.stride_whole hwhole hs hfront.symm, hfull, hrest, Stride.from, hstep]
  refine ⟨?_, rfl⟩
  rw [Stride.actions, List.flatMap_map]
  refine List.flatMap_congr ?_
  intro token _
  simp [Token.placedAt, ← hfront, Token.actions]

end Task

/-- A path through the ranges is one through the excerpt. -/
theorem Path.excerpt {t u : Task} (ht : t.Overlooks) (hu : u.Overlooks) (hwhole : u.IsWhole)
    (hdocument : u.document = Ranges.excerpt t.document t.ranges) (hgrammar : u.grammar = t.grammar)
    {a b : Point} {rs : List Stride} (h : Path t a rs b)
    (ha : Ranges.Spot t.document t.ranges a.pos) :
    ∃ rs', Path u ⟨rank t.ranges a.pos, a.state⟩ rs' ⟨rank t.ranges b.pos, b.state⟩ ∧
      rs'.flatMap Stride.actions =
        (rs.flatMap Stride.actions).map (Action.relabel (rank t.ranges)) := by
  induction h with
  | nil a => exact ⟨[], .nil _, rfl⟩
  | @cons a b rest hlt _ ih =>
    obtain ⟨-, hnext, -⟩ := Task.stride_progress ht.regular ha hlt
    obtain ⟨rs', hrest, hactions⟩ := ih hnext
    obtain ⟨step, hstep, hplayed, hpos, hstate⟩ := ht.stride_eq ha hlt
    obtain ⟨-, hcut, hroom⟩ :=
      Window.boundary_rank ht.regular ha.boundary (ha.inside.resolve_right (by omega))
    rw [← hdocument] at hcut hroom hstep
    rw [← hgrammar] at hstep
    obtain ⟨hsame, hland⟩ :=
      hu.stride_whole hwhole (a := ⟨rank t.ranges a.pos, a.state⟩) hcut hroom hstep
    rw [hpos, hstate, ← hland] at hrest
    refine ⟨_, .cons ?_ hrest, ?_⟩
    · rw [hwhole.stop_eq]
      exact hroom
    · rw [List.flatMap_cons, List.flatMap_cons, List.map_append, hsame, hplayed, hactions]

namespace Task

/-- Trees made up by the same actions at other positions differ in the positions only. -/
theorem relabel_treeOf {t u : Task} {f : Nat → Nat} {rs rs' : List Stride} (pos : Nat)
    (hactions : rs'.flatMap Stride.actions = (rs.flatMap Stride.actions).map (Action.relabel f))
    (hstart : f (Ranges.start t.ranges) = Ranges.start u.ranges)
    (hmark : u.config.markUnfinished = t.config.markUnfinished) :
    (t.treeOf rs pos).relabel f = u.treeOf rs' (f pos) := by
  have hplayed := PartialForest.play_relabel f .empty (rs.flatMap Stride.actions)
  have hempty : PartialForest.empty.relabel f = .empty := by
    simp [PartialForest.relabel, PartialForest.empty]
  rw [hempty, ← hactions] at hplayed
  rw [treeOf, treeOf, Tree.relabel, hstart, hplayed, hmark, PartialForest.relabel_finish,
    PartialForest.trees_relabel]

/-- Paths to the end of the ranges and to the end of the excerpt make the same tree. -/
theorem relabel_treeOf_excerpt {t u : Task} (ht : t.Overlooks) (hu : u.Overlooks)
    (hwhole : u.IsWhole) (hdocument : u.document = excerpt t.document t.ranges)
    (hgrammar : u.grammar = t.grammar) (hconfig : u.config = t.config) {rs qs : List Stride}
    {b d : Point} (hpath : Path t t.entry rs b) (hend : Ranges.stop t.ranges ≤ b.pos)
    (hpath' : Path u u.entry qs d) (hend' : Ranges.stop u.ranges ≤ d.pos) :
    (t.treeOf rs b.pos).relabel (rank t.ranges) = u.treeOf qs d.pos := by
  have hstart : rank t.ranges (Ranges.start t.ranges) = Ranges.start u.ranges := by
    rw [Ranges.rank_start ht.regular.separated, hwhole, Ranges.start_whole]
  have hentry : (⟨rank t.ranges t.entry.pos, t.entry.state⟩ : Point) = u.entry := by
    rw [entry, entry, hstart, hgrammar]
  obtain ⟨rs', hmapped, hactions⟩ :=
    hpath.excerpt ht hu hwhole hdocument hgrammar ht.regular.spot_start
  rw [hentry] at hmapped
  -- both paths come to the end of the excerpt
  obtain ⟨hspot, -⟩ := hpath.spot ht.regular ht.regular.spot_start
  have hstop : b.pos = Ranges.stop t.ranges := Nat.le_antisymm (ht.regular.spot_le hspot) hend
  have hlast : Ranges.stop u.ranges ≤ rank t.ranges b.pos := by
    rw [hwhole.stop_eq, hdocument, hstop, Window.length_excerpt ht.regular]
  obtain ⟨rfl, rfl⟩ := hmapped.unique hpath' hlast hend'
  exact relabel_treeOf b.pos hactions hstart (by rw [hconfig])

theorem overlooks_restrict (grammar : Grammar) {document : String} {config : Config}
    (ranges : List Interval) (hbefore : Document.length document ≤ config.marginBefore)
    (hafter : Document.length document ≤ config.marginAfter) :
    ((fresh grammar document config).restrict ranges).Overlooks :=
  ⟨(fresh grammar document config).regular_restrict ranges, hbefore, hafter⟩

/-- Ranges of a document are parsed as one text: if the margins reach over the document, the tree of
the ranges is that of their texts put together, where every position stands for the positions of the
ranges before it. -/
theorem run_excerpt (grammar : Grammar) (document : String) (config : Config)
    (ranges : List Interval) (hbound : Document.length document < offsetBound)
    (hbefore : Document.length document ≤ config.marginBefore)
    (hafter : Document.length document ≤ config.marginAfter) {t : Task}
    (ht : t = (fresh grammar document config).restrict ranges) :
    ∃ p parsed q whole, t.run = some (p, parsed) ∧
      (fresh grammar (excerpt document t.ranges) config).run = some (q, whole) ∧
      parsed.tree.relabel (rank t.ranges) = whole.tree := by
  have hoverlooks : t.Overlooks := ht ▸ overlooks_restrict grammar ranges hbefore hafter
  have hr : Ranges.Regular document t.ranges := by
    rw [ht]
    exact (fresh grammar document config).regular_restrict ranges
  have hshort : Document.length (excerpt document t.ranges) ≤ Document.length document := by
    have hstop := hr.boundary_stop.le
    rw [← Document.length_eq] at hstop
    rw [Window.length_excerpt hr]
    exact Nat.le_trans (Ranges.rank_le hr.separated _) hstop
  have hoverlooks' : (fresh grammar (excerpt document t.ranges) config).Overlooks := by
    rw [fresh_eq_restrict]
    exact overlooks_restrict grammar _ (Nat.le_trans hshort hbefore) (Nat.le_trans hshort hafter)
  obtain ⟨p, parsed, rs, b, hrun, hpath, hend, htree⟩ :=
    run_restrict grammar document config ranges hbound ht
  obtain ⟨q, whole, qs, d, hrun', hpath', hend', htree'⟩ :=
    run_restrict grammar (excerpt document t.ranges) config _
      (Nat.lt_of_le_of_lt hshort hbound) (fresh_eq_restrict ..)
  refine ⟨p, parsed, q, whole, hrun, hrun', ?_⟩
  rw [htree, htree']
  have hparts : t.document = document ∧ t.grammar = grammar ∧ t.config = config := by
    subst ht
    exact ⟨rfl, rfl, rfl⟩
  obtain ⟨hdocument, hgrammar, hconfig⟩ := hparts
  exact relabel_treeOf_excerpt hoverlooks hoverlooks' rfl (by rw [hdocument]; rfl) hgrammar.symm
    hconfig.symm hpath hend hpath' hend'

theorem run_excerpt_gappedGroups :
    Document.length "(a)(" < offsetBound ∧
      excerpt "(a)(" gappedGroups.ranges = "()(" ∧
      ∃ p parsed q whole, gappedGroups.run = some (p, parsed) ∧
        (fresh .groups (excerpt "(a)(" gappedGroups.ranges) {}).run = some (q, whole) ∧
        parsed.tree.relabel (rank gappedGroups.ranges) = whole.tree := by
  have hlength : Document.length "(a)(" = 4 := by decide +kernel
  have hbound : Document.length "(a)(" < offsetBound := by
    rw [hlength]
    decide
  refine ⟨hbound, by decide +kernel, ?_⟩
  exact run_excerpt .groups "(a)(" {} [⟨0, 1⟩, ⟨2, 4⟩] hbound (by rw [hlength]; decide)
    (by rw [hlength]; decide) gappedGroups_eq

end Task

end RegionTree
