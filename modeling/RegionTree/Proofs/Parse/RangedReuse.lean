import RegionTree.Proofs.Chunk.Starts
import RegionTree.Proofs.Grammar.Consumption
import RegionTree.Proofs.Parse.Path
import RegionTree.Proofs.Parse.Reparse
set_option autoImplicit false

/-!
# Reuse in ranges

A document that was parsed as a whole is parsed again in ranges, with the chunks of that parse.
Chunks that looked only at what the ranges hold from the start of the document on may be kept:
there a parse in ranges sees what a parse of the whole document sees (`Task.Part.stride_eq`), so the
walk that left them behind is the beginning of the path through the ranges (`Walk.path`).  Then the
tree is that of a parse of the ranges from scratch (`Task.restrict_transparent`).

Which chunks are kept is decided without regard to the ranges, though, and with a chunk that looked
past the first of them the tree may be another one (`Task.not_restrict_transparent`).
-/

namespace RegionTree

open Text (Boundary byteLength takeBytes)

/-! ## The beginning of a document -/

namespace Ranges

/-- The ranges hold the document up to a position, and there is no gap behind it. -/
def HoldsUpTo (r : IntervalSet) (pos : Nat) : Prop :=
  ∃ i rest, r.intervals = i :: rest ∧ i.start = 0 ∧ (pos < i.stop ∨ pos = i.stop ∧ rest = [])

namespace HoldsUpTo

variable {r : IntervalSet} {pos : Nat}

theorem mono (h : HoldsUpTo r pos) {before : Nat} (hle : before ≤ pos) : HoldsUpTo r before := by
  obtain ⟨i, rest, hr, hstart, hstop⟩ := h
  refine ⟨i, rest, hr, hstart, ?_⟩
  rcases hstop with hlt | ⟨rfl, hnil⟩
  · exact .inl (Nat.lt_of_le_of_lt hle hlt)
  · exact (Nat.lt_or_eq_of_le hle).imp_right fun heq => ⟨heq, hnil⟩

theorem start_eq (h : HoldsUpTo r pos) : start r = 0 := by
  obtain ⟨i, rest, hr, hstart, -⟩ := h
  rw [start, hr]
  exact hstart

theorem le_stop (h : HoldsUpTo r pos) (hr : IntervalSet.Separated r.intervals) : pos ≤ stop r := by
  obtain ⟨i, rest, hintervals, -, hstop⟩ := h
  have hfirst : i.stop ≤ stop r := stop_le hr (by simp [hintervals])
  omega

theorem clamp_eq (h : HoldsUpTo r pos) : clamp r pos = pos := by
  obtain ⟨i, rest, hr, hstart, hstop⟩ := h
  rw [clamp, hr, clampIn]
  rcases hstop with hlt | ⟨rfl, rfl⟩
  · rw [if_pos hlt, hstart, Nat.max_eq_left (Nat.zero_le pos)]
  · rw [if_neg (Nat.lt_irrefl _), clampIn, stop, hr]
    rfl

theorem spot (h : HoldsUpTo r pos) {document : String} (hpos : Boundary document.toList pos) :
    Spot document r pos := by
  obtain ⟨i, rest, hr, hstart, hstop⟩ := h
  refine ⟨hpos, ?_⟩
  rcases hstop with hlt | ⟨rfl, rfl⟩
  · exact .inl ⟨i, by simp [hr], by omega, hlt⟩
  · refine .inr ?_
    rw [stop, hr]
    rfl

end HoldsUpTo

end Ranges

open Ranges (HoldsUpTo)

/-- Text behind the window adds nothing to it. -/
theorem Window.append_eq_self {document : String} {start stop : Nat} (w : Window)
    (h : Document.floor document stop ≤ Document.floor document start) :
    w.append document start stop = w := by
  rw [append]
  exact if_pos h

/-- Ranges behind the end of the window add nothing to it. -/
theorem Window.foldl_append_eq_self {document : String} {before after pos stop : Nat}
    {intervals : List Interval} (w : Window)
    (hstop : Document.floor document (pos + after) ≤ stop)
    (hintervals : ∀ j ∈ intervals, Boundary document.toList j.start ∧ stop < j.start) :
    intervals.foldl (fun w j =>
      w.append document (max j.start (pos - before)) (min j.stop (pos + after))) w = w := by
  induction intervals with
  | nil => rfl
  | cons j rest ih =>
    obtain ⟨hcut, hbehind⟩ := hintervals j (by simp)
    have hlow : j.start ≤ Document.floor document (max j.start (pos - before)) :=
      Document.le_floor hcut (Nat.le_max_left _ _)
    have hhigh : Document.floor document (min j.stop (pos + after)) ≤
        Document.floor document (pos + after) :=
      Document.le_floor (Document.boundary_floor _ _)
        (Nat.le_trans (Document.floor_le _ _) (Nat.min_le_right _ _))
    rw [List.foldl_cons, append_eq_self w (by omega)]
    exact ih fun k hk => hintervals k (by simp [hk])

/-- Where the ranges hold all up to the end of the window, it is the window of the whole
document. -/
theorem Window.around_eq_whole {document : String} {r : IntervalSet}
    (hr : Ranges.Regular document r) {pos before after : Nat}
    (h : HoldsUpTo r (Document.floor document (pos + after))) :
    around r document pos before after =
      around (Ranges.whole (Document.length document)) document pos before after := by
  obtain ⟨i, rest, hintervals, hstart, hstop⟩ := h
  have hi : i ∈ r.intervals := by simp [hintervals]
  have hsome := hr.separated.nonempty i hi
  have hcut := (hr.ends i hi).2
  have hend := hcut.le
  rw [← Document.length_eq] at hend
  have hfirst : Document.floor document (min i.stop (pos + after)) =
      Document.floor document (min (Document.length document) (pos + after)) := by
    have hall : Document.floor document (min (Document.length document) (pos + after)) =
        Document.floor document (pos + after) := by
      rw [Document.floor, Document.floor]
      congr 1
      omega
    rw [hall]
    rcases Nat.le_total (pos + after) i.stop with hle | hle
    · rw [Nat.min_eq_right hle]
    · rw [Nat.min_eq_left hle, Document.floor_of_boundary hcut]
      have := Document.le_floor hcut hle
      omega
  have hbehind : ∀ j ∈ rest, Boundary document.toList j.start ∧ i.stop < j.start := by
    intro j hj
    have hapart := hr.separated.apart
    rw [hintervals] at hapart
    exact ⟨(hr.ends j (by simp [hintervals, hj])).1, (List.pairwise_cons.mp hapart).1 j hj⟩
  have hlength : Document.length document ≠ 0 := by omega
  rw [around, around, hintervals, Ranges.whole_intervals, if_neg hlength, List.foldl_cons,
    foldl_append_eq_self _ (by omega) hbehind, List.foldl_cons, List.foldl_nil, append, append,
    hfirst, hstart]

namespace Task

/-- A task for ranges of the document that another one is for as a whole. -/
structure Part (t₀ t : Task) : Prop where
  whole : t₀.IsWhole
  regular : Ranges.Regular t.document t.ranges
  document : t.document = t₀.document
  grammar : t.grammar = t₀.grammar
  marginBefore : t.config.marginBefore = t₀.config.marginBefore
  marginAfter : t.config.marginAfter = t₀.config.marginAfter

variable {t t₀ : Task}

/-- The window of a stride does not reach further than the stride saw. -/
theorem floor_le_seen (h : t₀.IsWhole) {a : Point} (ha : Boundary t₀.document.toList a.pos)
    (hlt : a.pos < Document.length t₀.document) :
    Document.floor t₀.document (a.pos + t₀.config.marginAfter) ≤ (t₀.stride a).seen := by
  rw [Document.length_eq] at hlt
  obtain ⟨front, c, back, hs, hfront⟩ := ha.next hlt
  have hfloor : Document.floor t₀.document (a.pos + t₀.config.marginAfter) =
      a.pos + byteLength (takeBytes t₀.config.marginAfter (c :: back)) := by
    rw [Document.floor_eq, hs, ← hfront, Text.takeBytes_append_of_le (Nat.le_add_right _ _),
      Nat.add_sub_cancel_left, Text.byteLength_append]
  rw [hfloor, stride_whole h hs hfront.symm, Stride.from]
  split
  · rw [Stride.seen]
    dsimp only
    split
    · rename_i hempty
      rw [(List.append_eq_nil_iff.mp hempty).2, Text.byteLength_nil]
      omega
    · exact Nat.le_max_left _ _
  · exact Nat.le_max_left _ _

namespace Part

variable (h : Part t₀ t) {a : Point} (ha : Boundary t₀.document.toList a.pos)
  (hlt : a.pos < Document.length t₀.document) (hseen : HoldsUpTo t.ranges (t₀.stride a).seen)

include h ha hlt hseen

theorem window_eq : t.window a.pos = t₀.window a.pos := by
  have hr := h.regular
  rw [h.document] at hr
  rw [window, window, h.document, h.marginBefore, h.marginAfter, h.whole]
  exact Window.around_eq_whole hr (hseen.mono (floor_le_seen h.whole ha hlt))

/-- A character that is skipped is skipped in the ranges. -/
theorem skip_eq {reach : Nat} (hle : (t₀.skip a reach).next.pos ≤ (t₀.stride a).seen) :
    t.skip a reach = t₀.skip a reach := by
  rw [Document.length_eq] at hlt
  obtain ⟨front, c, back, hs, hfront⟩ := ha.next hlt
  have hs' : t.document.toList = front ++ c :: back := by rw [h.document, hs]
  have hroom : a.pos + c.utf8Size ≤ Document.length t₀.document := by
    rw [Document.length_eq, hs, Text.byteLength_append, Text.byteLength_cons]
    omega
  rw [next_skip hs hfront.symm, h.whole, Ranges.clamp_whole hroom] at hle ⊢
  rw [next_skip hs' hfront.symm, (hseen.mono hle).clamp_eq]

/-- A step ends at the same position, unless it goes beyond what the stride saw. -/
theorem landing_eq {step : MatchStep} (hfound : t₀.stepFrom a = some step)
    (hle : a.pos < t₀.landing a.pos step → t₀.landing a.pos step ≤ (t₀.stride a).seen) :
    t.landing a.pos step = t₀.landing a.pos step := by
  obtain ⟨hforward, -, hnext, -⟩ := h.whole.stride_spec ha hlt
  have hroom := startInDocument_le h.whole.regular (pieces_ne_nil h.whole.regular ha hfound)
    ((t₀.window a.pos).position a.pos + step.length)
  rw [h.whole.stop_eq] at hroom
  have hplace : t₀.landing a.pos step =
      (t₀.window a.pos).startInDocument ((t₀.window a.pos).position a.pos + step.length) := by
    rw [landing, h.whole, Ranges.clamp_whole hroom]
  have hheld : HoldsUpTo t.ranges (t₀.landing a.pos step) := by
    apply hseen.mono
    omega
  rw [hplace] at hheld ⊢
  rw [landing, h.window_eq ha hlt hseen, hheld.clamp_eq]

/-- A stride that saw only what the ranges hold is the same in the ranges. -/
theorem stride_eq : t.stride a = t₀.stride a := by
  obtain ⟨hforward, -, hnext, -⟩ := h.whole.stride_spec ha hlt
  have hwindow := h.window_eq ha hlt hseen
  have hstep : t.stepFrom a = t₀.stepFrom a := by rw [stepFrom, stepFrom, hwindow, h.grammar]
  have hreach : t.reachFrom a.pos = t₀.reachFrom a.pos := by
    rw [reachFrom, reachFrom, hwindow]
  have hskipped : t.stride a = t.skip a (t₀.reachFrom a.pos) →
      t₀.stride a = t₀.skip a (t₀.reachFrom a.pos) → t.stride a = t₀.stride a := by
    intro hnew hold
    rw [hold] at hnext
    rw [hnew, hold, h.skip_eq ha hlt hseen (by rwa [hold])]
  cases hfound : t₀.stepFrom a with
  | none =>
    apply hskipped
    · rw [stride, hstep, hfound, hreach]
    · rw [stride, hfound]
  | some step =>
    by_cases hback : t₀.landing a.pos step ≤ a.pos
    · have hsame := h.landing_eq ha hlt hseen hfound
        fun hfar => absurd hback (Nat.not_le_of_lt hfar)
      apply hskipped
      · rw [stride, hstep, hfound]
        dsimp only
        rw [hsame, if_pos hback, hreach]
      · rw [stride, hfound]
        exact if_pos hback
    · have hold : (t₀.stride a).next.pos = t₀.landing a.pos step := by
        rw [stride, hfound]
        dsimp only
        rw [if_neg hback]
      have hsame := h.landing_eq ha hlt hseen hfound fun _ => hold ▸ hnext
      rw [stride, stride, hstep, hfound]
      dsimp only
      rw [hsame, if_neg hback, if_neg hback, hwindow, hreach]

end Part

end Task

/-- A walk that saw only what the ranges hold is a path in the ranges. -/
theorem Walk.path {t t₀ : Task} (h : Task.Part t₀ t) {a b : Point} {rs : List Stride}
    (hwalk : Walk t₀ a rs b) (ha : Boundary t₀.document.toList a.pos)
    (hseen : ∀ r ∈ rs, HoldsUpTo t.ranges r.seen) : Path t a rs b := by
  induction hwalk with
  | nil a => exact .nil a
  | @cons a b rest hlt _ ih =>
    obtain ⟨hforward, hnext, hle, -⟩ := h.whole.stride_spec ha hlt
    have hfirst := hseen (t₀.stride a) (by simp)
    have hstop := hfirst.le_stop h.regular.separated
    have hrest := ih hnext fun r hr => hseen r (by simp [hr])
    have hsame := h.stride_eq ha hlt hfirst
    rw [← hsame] at hrest ⊢
    exact .cons (by omega) hrest

/-! ## Restricted parses -/

namespace Task

/-- A task for ranges of an unchanged document, with chunks that were left behind by a walk through
all of it.  Those that are kept reach only into what the ranges hold from the start on. -/
structure Restarts (t t₀ : Task) : Prop where
  part : Part t₀ t
  length_lt : Document.length t.document < offsetBound
  inSight : Document.length t.document + t.config.marginBefore ≤ maxPosition
  edit : t.edit = none
  fragments : ∀ f ∈ t.fragments, (∃ stop, Fits t₀.document 0 f.chunks.chunks.toList stop) ∧
    ∃ b, Trail t₀ t₀.origin f.chunks.chunks.toList b
  kept : ∀ c ∈ (Parse.init t t.begin).chunks.chunks.toList, HoldsUpTo t.ranges c.reach

variable {t t₀ : Task}

/-- Where a parse is to be broken off has no influence on how it is begun. -/
theorem init_breakOff (t : Task) (breakOff : Option Nat) :
    Parse.init t { t.begin with breakOff } = { Parse.init t t.begin with breakOff } := by
  unfold Parse.init
  dsimp only
  split
  · rfl
  · unfold Parse.keepLeft
    dsimp only
    split
    · rfl
    · unfold Parse.resume
      dsimp only
      split
      · split <;> rfl
      · rfl

theorem Restarts.outlook_ne (h : t.Restarts t₀) {p : Parse} (hp : p.Along t)
    (hedit : p.edit = t.begin.edit) (hend : p.atEnd = false) (old : ChunkSequence) (index : Nat) :
    Parse.outlook t p ≠ .take old index :=
  Parse.outlook_ne_take h.part.regular h.edit h.inSight hp.stop_eq hedit hend old index

/-- A parse that has just been begun stands at the end of a path. -/
theorem Restarts.along_init (h : t.Restarts t₀) : (Parse.init t t.begin).Along t := by
  have hkept := h.kept
  obtain ⟨pos, state, chunks, checkpoint, old, stats, hinit, -, hbegun⟩ := Parse.init_eq t none
  have hinit' : Parse.init t t.begin = _ := hinit
  rw [hinit'] at hkept ⊢
  dsimp only at hkept
  suffices hall : Ranges.Spot t.document t.ranges pos ∧
      ChunkSequence.Tidy chunks.chunks.toList pos ∧ ∃ rs, Path t t.entry rs ⟨pos, state⟩ ∧
        chunks.actions = rs.flatMap Stride.actions from
    ⟨rfl, rfl, hall.1, hall.2.1, hall.2.2⟩
  rw [ChunkSequence.actions]
  generalize hpoint : (⟨pos, state⟩ : Point) = point at hbegun ⊢
  generalize chunks.chunks.toList = cs at hbegun hkept ⊢
  cases hbegun with
  | anew _ =>
    obtain rfl : pos = Ranges.start t.ranges := congrArg Point.pos hpoint
    exact ⟨h.part.regular.spot_start, .nil _, [], .nil _, rfl⟩
  | @kept f front back c s right hf hchunks hc _ hright =>
    obtain rfl : pos = c.start := congrArg Point.pos hpoint
    obtain ⟨⟨stop, hfits⟩, b, htrail⟩ := h.fragments f hf
    rw [hchunks] at hfits htrail
    have hsome : c.state ≠ none := by
      rw [hc]
      simp
    have hfront := (hfits.split hsome).1
    have hheld := hkept c.strip (by simp)
    have hreach : c.start ≤ c.strip.reach := Nat.le_max_left _ _
    have hspot : Ranges.Spot t.document t.ranges c.start := by
      rw [h.part.document]
      exact (hheld.mono hreach).spot hfront.boundary
    obtain ⟨rs, hwalk, hactions, hcharged⟩ :=
      TrailFrom.covers ((Trail.append_cons hc).mp htrail).1
    have hentry : t.entry = t₀.origin := by
      rw [entry, origin, hheld.start_eq, h.part.grammar]
    have hseen : ∀ r ∈ rs, HoldsUpTo t.ranges r.seen := by
      intro r hr
      obtain ⟨e, he, -, hle⟩ := hcharged r hr
      exact (hkept e (List.mem_append_left _ he)).mono hle
    have htidy := (hfront.append (.strip hfront.boundary)).tidy (Fits.unclosed_strip front c)
    refine ⟨hspot, htidy, rs, ?_, ?_⟩
    · rw [hentry]
      exact hwalk.path h.part (Text.boundary_zero _) hseen
    · have hblank : c.strip.isBlank = true := Chunk.isBlank_empty ..
      rw [List.flatMap_append, hactions trivial, List.flatMap_singleton,
        Chunk.actions_of_isBlank hblank, List.append_nil]
      rfl

/-- Through all that a parse does, it goes on along the path. -/
theorem Restarts.kept_along (h : t.Restarts t₀) :
    Parse.Kept t fun p => p.edit = t.begin.edit ∧ p.Along t where
  breakOff p _ hp := ⟨hp.1, hp.2.1, hp.2.2, hp.2.3, hp.2.4, hp.2.5⟩
  begun breakOff := by
    have halong := h.along_init
    obtain ⟨_, _, _, _, _, _, hinit, -⟩ := Parse.init_eq t breakOff
    refine ⟨by rw [hinit], ?_⟩
    rw [init_breakOff]
    exact ⟨halong.1, halong.2, halong.3, halong.4, halong.5⟩
  spliced p old index hp hend hlook := absurd hlook (h.outlook_ne hp.2 hp.1 hend old index)
  stepped p old hp hend _ := by
    obtain ⟨hedit, halong⟩ := hp
    have hlt := Parse.lt_stop_of_not_atEnd hend
    rw [halong.stop_eq] at hlt
    have hnext : ({ p with old } : Parse).Along t := ⟨halong.1, halong.2, halong.3, halong.4, halong.5⟩
    obtain ⟨_, hstep⟩ := Parse.matchStep_eq t { p with old }
    refine ⟨?_, hnext.matchStep h.part.regular h.length_lt hlt⟩
    rw [hstep]
    exact hedit

theorem Restarts.steers (h : t.Restarts t₀) : t.Steers :=
  steers_of_kept h.part.regular h.kept_along fun _ ⟨hedit, halong⟩ =>
    ⟨halong.stop_eq, halong.spot, fun old index hend => h.outlook_ne halong hedit hend old index⟩

/-! ## The tree -/

/-- The tokens of a step start before its end. -/
theorem lt_of_mem_tokens {s : State} {place : Text.Place} {step : MatchStep}
    (h : t.grammar.stepAt s place = some step) {pos stop : Nat}
    (htiles : Token.Tiles pos step.tokens stop) : ∀ token ∈ step.tokens, token.start < stop := by
  obtain ⟨empties, solid, htokens, -, hempty, hne, hsolid⟩ := Grammar.stepAt_emptiesFirst h
  rw [htokens] at htiles ⊢
  intro token htoken
  rcases List.mem_append.mp htoken with hin | hin
  · -- those without length are in front of one with a length
    obtain ⟨u, hu⟩ := List.exists_mem_of_ne_nil _ hne
    obtain ⟨mid, hfront, hback⟩ := htiles.split
    have hlast := (hfront.stop_le token hin).2
    have hnext := hback.stop_le u hu
    have := hempty token hin
    have := hsolid u hu
    omega
  · have hlast := htiles.stop_le token (List.mem_append_right _ hin)
    have := hsolid token hin
    omega

/-- The tokens of a stride start in the ranges. -/
theorem holds_start_stride (hr : Ranges.Regular t.document t.ranges) {a : Point}
    (ha : Ranges.Spot t.document t.ranges a.pos) (hlt : a.pos < Ranges.stop t.ranges) :
    ∀ token ∈ (t.stride a).tokens, Ranges.Holds t.ranges token.start := by
  have hhere : Ranges.Holds t.ranges a.pos := ha.inside.resolve_right (by omega)
  have hskip : ∀ reach, ∀ token ∈ (t.skip a reach).tokens,
      Ranges.Holds t.ranges token.start := by
    intro reach token htoken
    rw [skip] at htoken
    rw [List.mem_singleton.mp htoken]
    exact hhere
  unfold stride
  cases hstep : t.stepFrom a with
  | none => exact hskip _
  | some step =>
    dsimp only
    split
    · exact hskip _
    · intro token htoken
      obtain ⟨u, hu, rfl⟩ := List.mem_map.mp htoken
      obtain ⟨front, part, rest, htext, hfront, hlength, -, htiles⟩ :=
        stepFrom_consumes hr ha.boundary hstep
      have hshows := Window.shows_around hr a.pos t.config.marginBefore t.config.marginAfter
      have hbefore := lt_of_mem_tokens hstep htiles u hu
      have hsize := congrArg byteLength htext
      rw [Text.byteLength_append, Text.byteLength_append] at hsize
      obtain ⟨p, hp, hlow, hhigh, heq⟩ := hshows.laid.startIn_mem
        (pieces_ne_nil hr ha.boundary hstep) (Nat.zero_le u.start) (by
          rw [← window, hsize]
          omega)
      rw [← window, hsize] at hhigh
      obtain ⟨i, hi, hfrom, hto⟩ := hshows.inside p hp
      refine ⟨i, hi, ?_, ?_⟩
      · rw [Parse.inDocument]
        dsimp only
        rw [Window.startInDocument_eq, window, heq]
        omega
      · rw [Parse.inDocument]
        dsimp only
        rw [Window.startInDocument_eq, window, heq]
        omega

end Task

/-- Along a path all nodes are opened, and all leaves added, in the ranges. -/
theorem Path.startsIn {t : Task} (hr : Ranges.Regular t.document t.ranges) {a b : Point}
    {rs : List Stride} (h : Path t a rs b) (ha : Ranges.Spot t.document t.ranges a.pos) :
    ∀ x ∈ rs.flatMap Stride.actions, x.StartsIn (Ranges.Holds t.ranges) := by
  induction h with
  | nil a => simp
  | @cons a b rest hlt _ ih =>
    obtain ⟨-, hnext, -⟩ := Task.stride_progress hr ha hlt
    intro x hx
    rw [List.flatMap_cons] at hx
    rcases List.mem_append.mp hx with hx | hx
    · obtain ⟨token, htoken, hx⟩ := List.mem_flatMap.mp hx
      exact Token.startsIn_actions (Task.holds_start_stride hr ha hlt token htoken) x hx
    · exact ih hnext x hx

namespace Task

variable {t t₀ : Task}

/-- So no node of the tree of a path starts in a gap. -/
theorem startsIn_treeOf (hr : Ranges.Regular t.document t.ranges) {b : Point} {rs : List Stride}
    (h : Path t t.entry rs b) : (t.treeOf rs b.pos).StartsIn (Ranges.Holds t.ranges) := by
  obtain ⟨hspot, -⟩ := h.spot hr hr.spot_start
  refine Tree.startsIn_node (fun hlt => ?_) ?_
  · have hle := hr.spot_le hspot
    exact hr.spot_start.inside.resolve_right (by omega)
  · exact ((PartialForest.startsIn_empty.play (h.startsIn hr hr.spot_start)).finish _ _).trees

/-- The tree of a document is reused for ranges of it: if the chunks that are kept reach only into
what the ranges hold from the start of the document on, the parse gives the tree of the parse of the
ranges from scratch.  It stops at the end of the ranges, and nothing in it starts in a gap. -/
theorem restrict_transparent {before after : Nat} {t₀ t : Task}
    (h : Lineage t₀.grammar (SameMargins before after) t₀) {p₀ : Parse} {parsed₀ : ParseResult}
    (hp₀ : t₀.Comes p₀) (hparsed₀ : (Parse.advance t₀ p₀).2 = some parsed₀) {config : Config}
    (hconfig : SameMargins before after t₀.document config)
    (hsight : Document.length t₀.document + config.marginBefore ≤ maxPosition)
    {ranges : List Interval} {start stop : Nat}
    (ht : t = ((fresh t₀.grammar t₀.document config).restrict ranges).reuse
      [⟨parsed₀.chunks, start, stop⟩] none)
    (hkept : ∀ c ∈ (Parse.init t t.begin).chunks.chunks.toList, HoldsUpTo t.ranges c.reach) :
    ∃ p parsed q again, ((fresh t₀.grammar t₀.document config).restrict ranges).run =
        some (p, parsed) ∧ t.run = some (q, again) ∧ again.tree = parsed.tree ∧
      again.tree.stop = Ranges.stop t.ranges ∧
      again.tree.StartsIn (Ranges.Holds t.ranges) := by
  obtain ⟨-, hbefore, t₁, hsucceeds⟩ := h.succeeds
  obtain ⟨htraced, rfl⟩ := hp₀.finished hsucceeds.kept hparsed₀
  have hrestarts : t.Restarts t₀ := by
    subst ht
    refine ⟨⟨hsucceeds.follows.whole, (fresh ..).regular_restrict ranges, rfl, rfl,
      hconfig.2.1.trans hbefore.2.1.symm, hconfig.2.2.trans hbefore.2.2.symm⟩, hconfig.1, hsight,
      rfl, ?_, hkept⟩
    intro f hf
    obtain rfl := List.mem_singleton.mp hf
    exact ⟨⟨_, htraced.laid.fits.revised (ChunkSequence.revised_remember p₀.chunks p₀.pos)⟩, _,
      htraced.trail_result⟩
  obtain ⟨p, parsed, rs, b, hrun, hpath, hend, htree⟩ :=
    run_restrict t₀.grammar t₀.document config ranges hconfig.1 rfl
  obtain ⟨q, last, hrun', ⟨-, hlast⟩, hend'⟩ := hrestarts.steers.run_eq hrestarts.kept_along
  -- both parses come to the end of one path
  have hscratch : Path t t.entry rs b ∧ Ranges.stop t.ranges ≤ b.pos ∧
      parsed.tree = t.treeOf rs b.pos := by
    subst ht
    exact ⟨hpath.reuse _ _, hend, htree⟩
  obtain ⟨hpath, hend, htree⟩ := hscratch
  obtain ⟨qs, hpath', htree'⟩ := hlast.tree_eq hrestarts.part.regular
  rw [hlast.stop_eq] at hend'
  obtain ⟨rfl, rfl⟩ := hpath.unique hpath' hend hend'
  refine ⟨p, parsed, q, _, hrun, hrun', htree'.trans htree.symm, ?_, ?_⟩
  · rw [htree']
    exact Nat.le_antisymm (hrestarts.part.regular.spot_le hlast.spot) hend'
  · rw [htree']
    exact startsIn_treeOf hrestarts.part.regular hpath'

/-- Two groups. -/
def twoGroups : Task := .fresh .groups "()()" { marginBefore := 1, marginAfter := 1 }

/-- The first group and the start of the second, parsed with the chunks of both. -/
def cutGroups : Task :=
  ((fresh .groups "()()" { marginBefore := 1, marginAfter := 1 }).restrict [⟨0, 3⟩]).reuse
    [⟨(Parse.result twoGroups (twoGroups.after (.replicate 5 none))).chunks, 0, 4⟩] none

/-- The first group is kept, and only the start of the second is parsed. -/
theorem restrict_transparent_cutGroups :
    (Parse.init cutGroups cutGroups.begin).stats.keptLeft = 1 ∧
      (∀ c ∈ (Parse.init cutGroups cutGroups.begin).chunks.chunks.toList,
        HoldsUpTo cutGroups.ranges c.reach) ∧
      ∃ p parsed q again, ((fresh .groups "()()"
          { marginBefore := 1, marginAfter := 1 }).restrict [⟨0, 3⟩]).run = some (p, parsed) ∧
        cutGroups.run = some (q, again) ∧ again.tree = parsed.tree ∧
        again.tree.stop = Ranges.stop cutGroups.ranges ∧
        again.tree.StartsIn (Ranges.Holds cutGroups.ranges) := by
  have hok : SameMargins 1 1 "()()" twoGroups.config := ⟨by decide +kernel, rfl, rfl⟩
  have hend : (twoGroups.after (.replicate 5 none)).stage = .running ∧
      (twoGroups.after (.replicate 5 none)).atEnd = true := by decide +kernel
  have hranges : cutGroups.ranges.intervals = [⟨0, 3⟩] := by decide +kernel
  have hbelow : ∀ c ∈ (Parse.init cutGroups cutGroups.begin).chunks.chunks.toList,
      c.reach < 3 := by decide +kernel
  have hkept : ∀ c ∈ (Parse.init cutGroups cutGroups.begin).chunks.chunks.toList,
      HoldsUpTo cutGroups.ranges c.reach := by
    intro c hc
    exact ⟨⟨0, 3⟩, [], hranges, rfl, .inl (hbelow c hc)⟩
  have hcomes : twoGroups.Comes (twoGroups.after (.replicate 5 none)) := ⟨_, none, rfl⟩
  have hparsed := Parse.advance_of_atEnd (t := twoGroups) hend.1 hend.2
  refine ⟨by decide +kernel, hkept, ?_⟩
  exact restrict_transparent (.first hok) hcomes hparsed hok (by decide +kernel) rfl hkept

/-- A chunk that looked past the ranges is kept all the same, and then the tree goes past their end:
the second parenthesis is not in the ranges, but the group that it closes is in the tree. -/
theorem not_restrict_transparent :
    ∃ p q r whole parsed again, (fresh .groups "()()" {}).run = some (p, whole) ∧
      ((fresh .groups "()()" {}).restrict [⟨0, 1⟩]).run = some (q, parsed) ∧
      (((fresh .groups "()()" {}).restrict [⟨0, 1⟩]).reuse [⟨whole.chunks, 0, 4⟩] none).run =
        some (r, again) ∧
      parsed.tree.stop = 1 ∧ again.tree.stop = 2 ∧ again.tree ≠ parsed.tree := by
  have hruns : ((fresh .groups "()()" {}).run.bind fun x =>
      ((fresh .groups "()()" {}).restrict [⟨0, 1⟩]).run.bind fun y =>
        (((fresh .groups "()()" {}).restrict [⟨0, 1⟩]).reuse [⟨x.2.chunks, 0, 4⟩] none).run.map
          fun z => (y.2.tree.stop, z.2.tree.stop)) = some (1, 2) := by decide +kernel
  obtain ⟨⟨p, whole⟩, hwhole, hruns⟩ := Option.bind_eq_some_iff.mp hruns
  obtain ⟨⟨q, parsed⟩, hparsed, hruns⟩ := Option.bind_eq_some_iff.mp hruns
  obtain ⟨⟨r, again⟩, hagain, hstops⟩ := Option.map_eq_some_iff.mp hruns
  obtain ⟨hstop, hstop'⟩ := Prod.mk.inj hstops
  refine ⟨p, q, r, whole, parsed, again, hwhole, hparsed, hagain, hstop, hstop', ?_⟩
  intro hsame
  rw [hsame, hstop] at hstop'
  cases hstop'

end Task

end RegionTree
