import RegionTree.Proofs.Parse.Progress
import RegionTree.Proofs.Parse.Spans
set_option autoImplicit false

/-!
# Paths

In any ranges of a document, the strides that a parse makes lie one behind the other on a path from
the start of the ranges.  There is only one path to the end (`Path.unique`), and the tree of a parse
that came along it is made up by its strides (`Parse.Along.tree_eq`).
-/

namespace RegionTree

open ChunkSequence (Tidy)

/-- Strides one after the other, each from a point before the end of the ranges. -/
inductive Path (t : Task) : Point → List Stride → Point → Prop where
  | nil (a : Point) : Path t a [] a
  | cons {a b : Point} {rest : List Stride} : a.pos < Ranges.stop t.ranges →
      Path t (t.stride a).next rest b → Path t a (t.stride a :: rest) b

namespace Path

variable {t : Task} {a b d : Point} {rs qs : List Stride}

theorem append (h : Path t a rs b) (h' : Path t b qs d) : Path t a (rs ++ qs) d := by
  induction h with
  | nil a => exact h'
  | cons hlt _ ih => exact .cons hlt (ih h')

theorem single (h : a.pos < Ranges.stop t.ranges) : Path t a [t.stride a] (t.stride a).next :=
  .cons h (.nil _)

/-- A path goes from spot to spot, and never back. -/
theorem spot (hr : Ranges.Regular t.document t.ranges) (h : Path t a rs b)
    (ha : Ranges.Spot t.document t.ranges a.pos) :
    Ranges.Spot t.document t.ranges b.pos ∧ a.pos ≤ b.pos := by
  induction h with
  | nil a => exact ⟨ha, Nat.le_refl _⟩
  | cons hlt _ ih =>
    obtain ⟨hforward, hnext, -⟩ := Task.stride_progress hr ha hlt
    obtain ⟨hb, hle⟩ := ih hnext
    exact ⟨hb, by omega⟩

/-- Two paths from one point to the end of the ranges are the same. -/
theorem unique {b' : Point} {rs' : List Stride} (h : Path t a rs b) (h' : Path t a rs' b')
    (hb : Ranges.stop t.ranges ≤ b.pos) (hb' : Ranges.stop t.ranges ≤ b'.pos) :
    rs' = rs ∧ b' = b := by
  induction h generalizing rs' with
  | nil a =>
    cases h' with
    | nil => exact ⟨rfl, rfl⟩
    | cons hlt _ => omega
  | cons hlt _ ih =>
    cases h' with
    | nil => omega
    | cons _ hrest =>
      obtain ⟨rfl, rfl⟩ := ih hrest hb
      exact ⟨rfl, rfl⟩

/-- The same path leads through the ranges when there are chunks to take over. -/
theorem reuse (h : Path t a rs b) (fragments : List Fragment) (edit : Option Edit) :
    Path (t.reuse fragments edit) a rs b := by
  induction h with
  | nil a => exact .nil a
  | @cons a b rest hlt _ ih =>
    have hsame : (t.reuse fragments edit).stride a = t.stride a := rfl
    rw [← hsame] at ih ⊢
    exact .cons hlt ih

end Path

namespace Task

/-- Where a parse of the task starts. -/
def entry (t : Task) : Point := ⟨Ranges.start t.ranges, t.grammar.initialState⟩

/-- The tree that strides make up to a position. -/
def treeOf (t : Task) (rs : List Stride) (pos : Nat) : Tree :=
  .node .document (Ranges.start t.ranges) pos
    ((PartialForest.empty.play (rs.flatMap Stride.actions)).finish pos t.config.markUnfinished).trees

end Task

/-- A parse that came along a path: its chunks do what the strides of the path do. -/
structure Parse.Along (t : Task) (p : Parse) : Prop where
  start_eq : p.start = Ranges.start t.ranges
  stop_eq : p.stop = Ranges.stop t.ranges
  spot : Ranges.Spot t.document t.ranges p.pos
  tidy : Tidy p.chunks.chunks.toList p.pos
  path : ∃ rs, Path t t.entry rs p.point ∧ p.chunks.actions = rs.flatMap Stride.actions

namespace Parse.Along

variable {t : Task} {p : Parse}

/-- A step of matching goes on along the path. -/
theorem matchStep (hr : Ranges.Regular t.document t.ranges)
    (hbound : Document.length t.document < offsetBound) (h : p.Along t)
    (hlt : p.pos < Ranges.stop t.ranges) : (Parse.matchStep t p).Along t := by
  obtain ⟨-, hspot, -⟩ := Task.stride_progress hr (a := p.point) h.spot hlt
  obtain ⟨htidy, hactions⟩ := Task.tidy_matchStep hr hbound h.tidy h.spot hlt
  obtain ⟨rs, hpath, hplayed⟩ := h.path
  obtain ⟨_, heq⟩ := Parse.matchStep_eq t p
  refine ⟨?_, ?_, ?_, htidy, rs ++ [t.stride p.point], ?_, ?_⟩
  · rw [heq]
    exact h.start_eq
  · rw [heq]
    exact h.stop_eq
  · rw [Parse.pos_matchStep]
    exact hspot
  · rw [Parse.point_matchStep]
    exact hpath.append (.single hlt)
  · rw [hactions, hplayed, List.flatMap_append, List.flatMap_singleton]
    rfl

/-- The tree of a parse that came along a path is made up by the strides. -/
theorem tree_eq (hr : Ranges.Regular t.document t.ranges) (h : p.Along t) :
    ∃ rs, Path t t.entry rs p.point ∧ (Parse.result t p).tree = t.treeOf rs p.pos := by
  obtain ⟨rs, hpath, hactions⟩ := h.path
  obtain ⟨-, hle⟩ := hpath.spot hr hr.spot_start
  have hforward : Ranges.start t.ranges ≤ p.pos := hle
  refine ⟨rs, hpath, ?_⟩
  rw [Parse.tree_result t (fun c hc => h.tidy.start_le hc) h.tidy.keepsOwn, Task.treeOf,
    h.start_eq, ← hactions, Nat.add_sub_cancel' hforward]

end Parse.Along

namespace Task

variable {t : Task}

/-- Parses from scratch come along paths. -/
theorem kept_along (hr : Ranges.Regular t.document t.ranges) (hnone : t.fragments = [])
    (hbound : Document.length t.document < offsetBound) :
    Parse.Kept t fun p => t.Unaided p ∧ p.Along t := by
  refine kept_scratch hr hnone (fun p _ hp => ⟨hp.1, hp.2, hp.3, hp.4, hp.5⟩) ?_ ?_
  · intro breakOff
    exact ⟨rfl, rfl, hr.spot_start, .nil _, [], .nil _, rfl⟩
  · intro p _ hlt hp
    exact hp.matchStep hr hbound hlt

/-- A task for a whole document is restricted to all of it. -/
theorem fresh_eq_restrict (grammar : Grammar) (document : String) (config : Config) :
    fresh grammar document config =
      (fresh grammar document config).restrict [⟨0, Document.length document⟩] := by
  have hend : Text.Boundary document.toList (Document.length document) := by
    rw [Document.length_eq]
    exact Text.boundary_byteLength _
  have hzero : Document.floor document 0 = 0 := Document.floor_of_boundary (Text.boundary_zero _)
  rw [restrict, fresh]
  dsimp only
  rw [List.map_singleton, hzero, Document.floor_of_boundary hend]
  rfl

/-- The parse from scratch of any ranges gives the tree of the path to their end. -/
theorem run_restrict (grammar : Grammar) (document : String) (config : Config)
    (ranges : List Interval) (hbound : Document.length document < offsetBound) {t : Task}
    (ht : t = (fresh grammar document config).restrict ranges) :
    ∃ p parsed rs b, t.run = some (p, parsed) ∧ Path t t.entry rs b ∧
      Ranges.stop t.ranges ≤ b.pos ∧ parsed.tree = t.treeOf rs b.pos := by
  subst ht
  have hsteers := steers_restrict grammar document config ranges
  obtain ⟨p, last, hrun, ⟨-, hlast⟩, hend⟩ :=
    hsteers.run_eq (kept_along hsteers.regular rfl hbound)
  obtain ⟨rs, hpath, htree⟩ := hlast.tree_eq hsteers.regular
  rw [hlast.stop_eq] at hend
  exact ⟨p, _, rs, last.point, hrun, hpath, hend, htree⟩

end Task

end RegionTree
