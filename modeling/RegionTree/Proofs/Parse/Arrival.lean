import RegionTree.Proofs.Parse.Reparse
import RegionTree.Proofs.Parse.Spans
set_option autoImplicit false

/-!
# Where parsing can go on

A chunk with a state stands for a promise: a parse of the document from scratch comes by the start
of the chunk, between two steps, in that state, and has by then done what the chunks before do.
Whatever a parse leaves behind keeps the promise, however the document came about
(`Task.restart_sound`).

It keeps it in other documents too, in all that begin with what the chunks before reach into: a
chunk reaches as far as the steps that made it looked, and past an edit it is only kept if the edit
is out of sight of them.
-/

namespace RegionTree

open Text (Boundary byteLength)

namespace Task

variable {t : Task}

/-- A parse of the task that is never told to break off comes by a point between two steps.  The
strides up to there do some actions, and its chunks then hold them. -/
def ComesBy (t : Task) (a : Point) (actions : List Action) : Prop :=
  ∃ rs, Walk t t.origin rs a ∧ rs.flatMap Stride.actions = actions ∧
    ∃ p, p = t.after (.replicate (rs.length + 1) none) ∧ p.stage = .running ∧ p.point = a ∧
      p.chunks.actions = actions

/-- As long as a parse from scratch has not come to its end, it makes steps of matching. -/
theorem advance_of_unaided {p : Parse} (h : t.Unaided p) (hrunning : p.stage = .running)
    (hbreak : p.breakOff = none) (hlt : p.pos < Ranges.stop t.ranges) :
    (Parse.advance t p).1 = Parse.matchStep t p := by
  obtain ⟨hend, hlook⟩ := h.outlook_eq hbreak hlt
  rw [Parse.advance, hrunning]
  dsimp only
  rw [hend, if_neg Bool.false_ne_true, hlook]

/-- A parse from scratch goes along a walk, one step for each stride. -/
theorem go_walk (ht : t.IsWhole) (hnone : t.fragments = [])
    (hbound : Document.length t.document < offsetBound) {a b : Point} {rs : List Stride}
    (hwalk : Walk t a rs b) {p : Parse} (hp : t.Comes p) (hrunning : p.stage = .running)
    (hbreak : p.breakOff = none) (ha : p.point = a) :
    (p.go t (.replicate rs.length none)).stage = .running ∧
      (p.go t (.replicate rs.length none)).point = b ∧
      (p.go t (.replicate rs.length none)).chunks.actions =
        p.chunks.actions ++ rs.flatMap Stride.actions := by
  induction hwalk generalizing p with
  | nil a => exact ⟨hrunning, ha, (List.append_nil _).symm⟩
  | cons hlt _ ih =>
    subst ha
    obtain ⟨hunaided, hinStep⟩ :=
      (hp.holds (kept_inStep ht.regular hnone hbound)).running hrunning
    have hroom : p.pos < Ranges.stop t.ranges := by
      rw [ht.stop_eq]
      exact hlt
    have hadvance := advance_of_unaided hunaided hrunning hbreak hroom
    obtain ⟨-, hactions⟩ := tidy_matchStep ht.regular hbound hinStep.tidy hunaided.spot hroom
    have hnext := hp.advance
    rw [hadvance] at hnext
    obtain ⟨hstage, hpoint, hall⟩ := ih hnext ((Parse.stage_matchStep t p).trans hrunning)
      ((Parse.breakOff_matchStep t p).trans hbreak) (Parse.point_matchStep t p)
    have hgo : ∀ n, p.go t (.replicate (n + 1) none) =
        (Parse.matchStep t p).go t (.replicate n none) := by
      intro n
      rw [← hadvance]
      rfl
    rw [List.length_cons, hgo]
    refine ⟨hstage, hpoint, ?_⟩
    rw [hall, hactions, List.append_assoc, List.flatMap_cons]
    rfl

/-- What a walk from the start comes by, a parse from scratch comes by. -/
theorem comesBy_of_walk (ht : t.IsWhole) (hnone : t.fragments = [])
    (hbound : Document.length t.document < offsetBound) {a : Point} {rs : List Stride}
    (hwalk : Walk t t.origin rs a) : t.ComesBy a (rs.flatMap Stride.actions) := by
  have hopened : (Parse.advance t t.begin).1 = t.opened none := init_eq_opened hnone none
  have horigin : (t.opened none).point = t.origin := by
    rw [Parse.point, opened, origin, ht, Ranges.start_whole]
    rfl
  have hcomes := t.comes_begin.advance
  rw [hopened] at hcomes
  have hall := go_walk ht hnone hbound hwalk hcomes rfl rfl horigin
  rw [← hopened] at hall
  obtain ⟨hstage, hpoint, hactions⟩ := hall
  refine ⟨rs, hwalk, rfl, _, rfl, hstage, hpoint, hactions.trans ?_⟩
  rw [hopened]
  rfl

/-- Chunks that such a walk left behind hold what a parse from scratch has done by then. -/
theorem comesBy_of_trail {a : Point} {cs : List Chunk} (h : Trail t t.origin cs a)
    (ht : t.IsWhole) (hnone : t.fragments = [])
    (hbound : Document.length t.document < offsetBound) :
    t.ComesBy a (cs.flatMap Chunk.actions) := by
  obtain ⟨rs, hwalk, hactions, -⟩ := h.covers
  rw [List.nil_append] at hactions
  rw [← hactions trivial]
  exact comesBy_of_walk ht hnone hbound hwalk

/-- Parsing can go on from a chunk with a state: a parse from scratch, of the document or of another
one that begins with what the chunks before reach into, comes by its start in that state, and has
done what those chunks do. -/
theorem restart_sound {grammar : Grammar} {before after : Nat}
    (h : Lineage grammar (SameMargins before after) t) {p : Parse} {parsed : ParseResult}
    (hp : t.Comes p) (hparsed : (Parse.advance t p).2 = some parsed) {front back : List Chunk}
    {c : Chunk} {s : State} (hchunks : parsed.chunks.chunks.toList = front ++ c :: back)
    (hc : c.state = some s) :
    (∀ config, SameMargins before after t.document config →
      (fresh grammar t.document config).ComesBy ⟨c.start, s⟩ (front.flatMap Chunk.actions)) ∧
    ∀ document config bound, SameMargins before after document config →
      Document.isBoundary t.document bound = true →
      Document.read document 0 bound = Document.read t.document 0 bound →
      (∀ e ∈ front, e.reach < bound) →
      (fresh grammar document config).ComesBy ⟨c.start, s⟩ (front.flatMap Chunk.actions) := by
  obtain ⟨hgrammar, hmargins, t₀, hsucceeds⟩ := h.succeeds
  obtain ⟨htraced, rfl⟩ := hp.finished hsucceeds.kept hparsed
  have htrail := htraced.trail_result
  rw [hchunks] at htrail
  have hfront : Trail t t.origin front ⟨c.start, s⟩ := ((Trail.append_cons hc).mp htrail).1
  have horigin : ∀ document config, t.origin = (fresh grammar document config).origin := by
    intro document config
    rw [origin, origin, hgrammar]
    rfl
  have halike : ∀ document config, SameMargins before after document config →
      Alike t (fresh grammar document config) :=
    fun document config hok => hmargins.alike hok hsucceeds.follows.whole rfl hgrammar rfl
  constructor
  · intro config hok
    have hthere := TrailFrom.congr (stride_congr (halike _ _ hok) rfl) rfl hfront
    rw [horigin] at hthere
    exact comesBy_of_trail hthere rfl rfl hok.1
  · intro document config bound hok hbound hread hreach
    rw [Document.isBoundary_iff] at hbound
    obtain ⟨common, rest, rest', hs, hs', rfl⟩ := Document.shared_of_read hbound hread
    have hthere := TrailFrom.shared (halike _ _ hok) hs hs' hfront (Text.boundary_zero _)
      (by simpa using hreach)
    rw [horigin] at hthere
    exact comesBy_of_trail hthere rfl rfl hok.1

/-- From the second group of the edited ones parsing can go on, also in a document that ends
differently. -/
theorem restart_sound_editedGroups : ∃ p parsed front c back s, editedGroups.Comes p ∧
    (Parse.advance editedGroups p).2 = some parsed ∧
    parsed.chunks.chunks.toList = front ++ c :: back ∧ c.start = 3 ∧ c.state = some s ∧
    (fresh .groups "()a()()" threeGroups.config).ComesBy ⟨c.start, s⟩
      (front.flatMap Chunk.actions) ∧
    (fresh .groups "()a()a" threeGroups.config).ComesBy ⟨c.start, s⟩
      (front.flatMap Chunk.actions) := by
  have hend : (editedGroups.after (.replicate 9 none)).stage = .running ∧
      (editedGroups.after (.replicate 9 none)).atEnd = true := by decide +kernel
  have hcomes : editedGroups.Comes (editedGroups.after (.replicate 9 none)) := ⟨_, none, rfl⟩
  have hparsed := Parse.advance_of_atEnd (t := editedGroups) hend.1 hend.2
  have hmarks : (Parse.result editedGroups
      (editedGroups.after (.replicate 9 none))).chunks.chunks.toList.map
        (fun c => (c.start, c.reach, c.state.isSome)) =
      [(0, 2, true), (2, 4, true), (3, 5, true), (5, 7, true), (7, 7, false)] := by decide +kernel
  obtain ⟨first, rest, hchunks, hfirst, hmarks⟩ := List.map_eq_cons_iff.mp hmarks
  obtain ⟨second, rest, rfl, hsecond, hmarks⟩ := List.map_eq_cons_iff.mp hmarks
  obtain ⟨c, back, rfl, hc, -⟩ := List.map_eq_cons_iff.mp hmarks
  simp only [Prod.mk.injEq] at hfirst hsecond hc
  obtain ⟨s, hs⟩ := Option.isSome_iff_exists.mp hc.2.2
  have hreach : ∀ e ∈ [first, second], e.reach < 5 := by simp [hfirst, hsecond]
  have hlineage : Lineage editedGroups.grammar (SameMargins 1 1) editedGroups :=
    lineage_editedGroups ⟨by decide +kernel, rfl, rfl⟩ ⟨by decide +kernel, rfl, rfl⟩
  have hcut : (Parse.result editedGroups
      (editedGroups.after (.replicate 9 none))).chunks.chunks.toList =
        [first, second] ++ c :: back := hchunks
  obtain ⟨hsame, hother⟩ := restart_sound hlineage hcomes hparsed hcut hs
  exact ⟨_, _, [first, second], c, back, s, hcomes, hparsed, hcut, hc.1, hs,
    hsame _ ⟨by decide +kernel, rfl, rfl⟩,
    hother _ _ 5 ⟨by decide +kernel, rfl, rfl⟩ (by decide +kernel) (by decide +kernel) hreach⟩

end Task

end RegionTree
