import Mathlib.Data.List.Perm.Subperm
import RegionTree.Proofs.Parse.Arrival
set_option autoImplicit false

/-!
# How much work a parse does

A parse makes its steps of matching at points further and further on
(`Task.Steers.inOrder_stepPoints`), and never goes back, not even when it takes over old chunks.  If
it takes chunks from a parse of the document before, each of these points lies on the walk of a
parse from scratch, which makes a step there too.  So it makes no more steps than that one, and
skips no more characters (`Task.spares_of_lineage`).
-/

namespace RegionTree

open Text (Boundary byteLength)

namespace Parse

/-- Whether an advance makes a step of matching. -/
def steps (t : Task) (p : Parse) : Bool :=
  p.stage == .running && !p.atEnd && !takesOver t p

/-- The points at which some advances make steps of matching. -/
def stepPoints (t : Task) : Parse → List (Option Nat) → List Point
  | _, [] => []
  | p, request :: rest =>
    (if steps t (p.asked request) then [(p.asked request).point] else []) ++
      stepPoints t (advance t (p.asked request)).1 rest

variable {t : Task} {p : Parse}

theorem steps_iff : steps t p = true ↔
    p.stage = .running ∧ p.atEnd = false ∧ takesOver t p = false := by
  simp [steps, and_assoc]

theorem point_asked (p : Parse) (request : Option Nat) : (p.asked request).point = p.point := by
  obtain ⟨_, hasked⟩ := p.asked_eq request
  rw [hasked]
  rfl

/-- An advance that makes a step of matching goes on where the stride stops. -/
theorem point_of_steps (h : steps t p = true) :
    (advance t p).1.point = (t.stride p.point).next := by
  obtain ⟨hrunning, hend, hnot⟩ := steps_iff.mp h
  have hadvances := advances_advance t p
  generalize advance t p = q at hadvances
  cases hadvances with
  | begun hfresh => rw [hfresh] at hrunning; cases hrunning
  | idle hidle => rw [hidle] at hrunning; cases hrunning
  | ended _ hend' => rw [hend] at hend'; cases hend'
  | spliced _ _ hlook => simp [takesOver, hrunning, hend, hlook] at hnot
  | stepped _ _ _ _ => exact point_matchStep t _

/-! ## Counting steps -/

theorem stats_resume (p : Parse) (chunks : ChunkSequence) (index : Nat) :
    (p.resume chunks index).stats = p.stats := by
  obtain ⟨_, _, hresume, -⟩ := resume_eq p chunks index
  rw [hresume]

theorem stats_init (t : Task) (p : Parse) :
    ∃ kept, (init t p).stats = { p.stats with keptLeft := kept } := by
  unfold init
  dsimp only
  split
  · exact ⟨_, rfl⟩
  · unfold keepLeft
    split
    · exact ⟨_, rfl⟩
    · rename_i index _
      exact ⟨index, by simp only [stats_resume]⟩

/-- The work that an advance does: it counts one step at its point, if it makes one. -/
theorem stats_advance (t : Task) (p : Parse) :
    (advance t p).1.stats.matched = p.stats.matched +
        (steps t p && !(t.stride p.point).forced).toNat ∧
      (advance t p).1.stats.forcedErrors = p.stats.forcedErrors +
        (steps t p && (t.stride p.point).forced).toNat := by
  have hadvances := advances_advance t p
  generalize advance t p = q at hadvances
  cases hadvances with
  | begun hfresh =>
    obtain ⟨kept, hstats⟩ := stats_init t p
    simp [hstats, steps, hfresh]
  | idle hidle => simp [steps, hidle]
  | ended _ hend => simp [steps, hend]
  | @spliced old index hrunning hend hlook =>
    obtain ⟨_, _, _, _, _, hsplice, -⟩ := splice_eq t p old index
    have hnot : steps t p = false := by simp [steps, takesOver, hrunning, hend, hlook]
    simp [hsplice, hnot]
  | @stepped old hrunning hend hnot _ =>
    obtain ⟨_, hstep⟩ := matchStep_eq t { p with old }
    have hsteps : steps t p = true := steps_iff.mpr ⟨hrunning, hend, hnot⟩
    have hpoint : ({ p with old } : Parse).point = p.point := rfl
    rw [hstep, hsteps]
    dsimp only
    rw [count, hpoint]
    cases (t.stride p.point).forced <;> simp

theorem stats_go (t : Task) (p : Parse) (requests : List (Option Nat)) :
    (p.go t requests).stats.matched = p.stats.matched +
        (stepPoints t p requests).countP (fun a => !(t.stride a).forced) ∧
      (p.go t requests).stats.forcedErrors = p.stats.forcedErrors +
        (stepPoints t p requests).countP (fun a => (t.stride a).forced) := by
  induction requests generalizing p with
  | nil => exact ⟨rfl, rfl⟩
  | cons request rest ih =>
    obtain ⟨hmatched, hforced⟩ := ih (advance t (p.asked request)).1
    obtain ⟨hfirst, hfirst'⟩ := stats_advance t (p.asked request)
    have hstats : (p.asked request).stats = p.stats := by
      obtain ⟨_, hasked⟩ := p.asked_eq request
      rw [hasked]
    rw [hstats] at hfirst hfirst'
    have hgo : p.go t (request :: rest) = (advance t (p.asked request)).1.go t rest := rfl
    rw [hgo, hmatched, hforced, hfirst, hfirst', stepPoints, List.countP_append, List.countP_append,
      Nat.add_assoc, Nat.add_assoc]
    cases steps t (p.asked request) with
    | false => simp
    | true =>
      simp only [if_true, List.countP_singleton, Bool.true_and]
      cases (t.stride (p.asked request).point).forced <;> simp

theorem go_finished (t : Task) {p : Parse} (h : p.stage = .finished) (n : Nat) :
    p.go t (.replicate n none) = p := by
  have hidle : (advance t p).1 = p := by rw [advance, h]
  induction n with
  | zero => rfl
  | succ n ih =>
    have hgo : p.go t (.replicate (n + 1) none) = (advance t p).1.go t (.replicate n none) := rfl
    rw [hgo, hidle, ih]

/-- A parse that is left alone comes to its end within as many advances as it is given. -/
theorem go_of_runFrom {fuel : Nat} {q : Parse} {parsed : ParseResult}
    (h : runFrom t fuel p = some (q, parsed)) : p.go t (.replicate fuel none) = q := by
  induction fuel generalizing p with
  | zero => cases h
  | succ fuel ih =>
    have hgo : p.go t (.replicate (fuel + 1) none) =
        (advance t p).1.go t (.replicate fuel none) := rfl
    unfold runFrom at h
    have hadvances := advances_advance t p
    rw [hgo]
    generalize advance t p = next at h hadvances
    cases hadvances with
    | ended _ _ =>
      cases h
      exact go_finished t rfl fuel
    | idle _ => exact ih h
    | begun _ => exact ih h
    | spliced _ _ _ => exact ih h
    | stepped _ _ _ _ => exact ih h

end Parse

namespace Task

open Parse (steps stepPoints steps_iff)

variable {t : Task}

/-! ## Never back -/

/-- No advance goes back, and a step of matching goes forward. -/
theorem Steers.pos_le (h : t.Steers) {p : Parse} (hp : t.Comes p) :
    p.pos ≤ (Parse.advance t p).1.pos ∧
      (steps t p = true → p.pos < (Parse.advance t p).1.pos) := by
  cases hnow : p.stage with
  | fresh =>
    refine ⟨?_, fun hsteps => by simp [steps, hnow] at hsteps⟩
    obtain ⟨breakOff, rfl⟩ := hp.fresh hnow
    exact Nat.zero_le _
  | finished =>
    have hidle : Parse.advance t p = (p, none) := by rw [Parse.advance, hnow]
    rw [hidle]
    exact ⟨Nat.le_refl _, fun hsteps => by simp [steps, hnow] at hsteps⟩
  | running =>
    cases hend : p.atEnd with
    | true =>
      refine ⟨?_, fun hsteps => by simp [steps, hend] at hsteps⟩
      rw [Parse.advance, hnow]
      dsimp only
      rw [if_pos hend]
    | false =>
      have hprogress := (h.steady hp hnow).progress h.regular hnow
      generalize Parse.advance t p = next at hprogress ⊢
      cases hprogress with
      | ended hend' _ => rw [hend] at hend'; cases hend'
      | matched hq _ => exact ⟨Nat.le_of_lt hq.lt, fun _ => hq.lt⟩
      | forced hq _ _ _ _ => exact ⟨Nat.le_of_lt hq.lt, fun _ => hq.lt⟩
      | spliced htakes _ _ _ hle _ =>
        exact ⟨hle, fun hsteps => by simp [steps, htakes] at hsteps⟩

/-- The points of the steps of matching lie one behind the other. -/
theorem Steers.inOrder_stepPoints (h : t.Steers) (requests : List (Option Nat)) {p : Parse}
    (hp : t.Comes p) :
    (stepPoints t p requests).Pairwise (fun a b => a.pos < b.pos) ∧
      ∀ a ∈ Parse.stepPoints t p requests, p.pos ≤ a.pos := by
  induction requests generalizing p with
  | nil => exact ⟨.nil, by simp [Parse.stepPoints]⟩
  | cons request rest ih =>
    have hasked := hp.asked request
    have hpos : (p.asked request).pos = p.pos := congrArg Point.pos (p.point_asked request)
    obtain ⟨hle, hlt⟩ := h.pos_le hasked
    obtain ⟨hrest, hbehind⟩ := ih hasked.advance
    rw [Parse.stepPoints]
    cases hsteps : steps t (p.asked request) with
    | false =>
      refine ⟨hrest, fun a ha => ?_⟩
      have := hbehind a ha
      omega
    | true =>
      have hforward := hlt hsteps
      have hfirst : (p.asked request).point.pos = (p.asked request).pos := rfl
      rw [if_pos rfl, List.singleton_append]
      refine ⟨.cons (fun a ha => ?_) hrest, fun a ha => ?_⟩
      · have := hbehind a ha
        omega
      · rcases List.mem_cons.mp ha with rfl | ha
        · omega
        · have := hbehind a ha
          omega

/-! ## The points of a parse from scratch -/

theorem steps_of_unaided {p : Parse} (h : t.Unaided p) (hrunning : p.stage = .running)
    (hbreak : p.breakOff = none) (hlt : p.pos < Ranges.stop t.ranges) : steps t p = true := by
  obtain ⟨hend, hlook⟩ := h.outlook_eq hbreak hlt
  exact steps_iff.mpr ⟨hrunning, hend, by simp [Parse.takesOver, hlook]⟩

/-- A parse from scratch makes a step of matching at each point of its walk. -/
theorem mem_stepPoints_of_walk (ht : t.IsWhole) (hnone : t.fragments = []) {a b : Point}
    {rs : List Stride} (hwalk : Walk t a rs b) (hb : b.pos < Document.length t.document)
    {p : Parse} (hp : t.Comes p) (hrunning : p.stage = .running) (hbreak : p.breakOff = none)
    (ha : p.point = a) {n : Nat} (hfinished : (p.go t (.replicate n none)).stage = .finished) :
    b ∈ stepPoints t p (.replicate n none) := by
  -- the parse is not at its end yet, so an advance is left, and it is a step
  have hstep : ∀ {p : Parse} {n : Nat}, t.Comes p → p.stage = .running → p.breakOff = none →
      p.pos < Document.length t.document →
      (p.go t (.replicate n none)).stage = .finished → ∃ m, n = m + 1 ∧
        stepPoints t p (.replicate (m + 1) none) =
          p.point :: stepPoints t (Parse.advance t p).1 (.replicate m none) ∧
        (Parse.advance t p).1 = Parse.matchStep t p ∧
        ((Parse.advance t p).1.go t (.replicate m none)).stage = .finished := by
    intro p n hp hrunning hbreak hlt hfinished
    have hunaided := hp.unaided ht.regular hnone hrunning
    rw [← ht.stop_eq] at hlt
    have hsteps := steps_of_unaided hunaided hrunning hbreak hlt
    cases n with
    | zero =>
      have hsame : p.stage = .finished := hfinished
      rw [hrunning] at hsame
      cases hsame
    | succ m =>
      refine ⟨m, rfl, ?_, advance_of_unaided hunaided hrunning hbreak hlt, hfinished⟩
      rw [List.replicate_succ, Parse.stepPoints]
      have hasked : p.asked none = p := rfl
      rw [hasked, hsteps, if_pos rfl, List.singleton_append]
  induction hwalk generalizing p n with
  | nil a =>
    subst ha
    obtain ⟨n, rfl, hsteps, -, -⟩ := hstep hp hrunning hbreak hb hfinished
    rw [hsteps]
    simp
  | @cons a b rest hlt _ ih =>
    subst ha
    obtain ⟨n, rfl, hsteps, hadvance, hgo⟩ := hstep hp hrunning hbreak hlt hfinished
    rw [hsteps]
    have hnext := hp.advance
    rw [hadvance] at hnext hgo
    have hmem := ih hb hnext ((Parse.stage_matchStep t p).trans hrunning)
      ((Parse.breakOff_matchStep t p).trans hbreak) (Parse.point_matchStep t p) hgo
    rw [hadvance]
    exact List.mem_cons_of_mem _ hmem

/-- So the points of a walk are among those of the parse that is left alone. -/
theorem mem_stepPoints (ht : t.IsWhole) (hnone : t.fragments = []) {b : Point} {rs : List Stride}
    (hwalk : Walk t t.origin rs b) (hb : b.pos < Document.length t.document) {n : Nat}
    (hfinished : (t.after (.replicate n none)).stage = .finished) :
    b ∈ stepPoints t t.begin (.replicate n none) := by
  have hopened : (Parse.advance t t.begin).1 = t.opened none := init_eq_opened hnone none
  have horigin : (t.opened none).point = t.origin := by
    rw [Parse.point, opened, origin, ht, Ranges.start_whole]
    rfl
  have hcomes := t.comes_begin.advance
  rw [hopened] at hcomes
  cases n with
  | zero => cases hfinished
  | succ n =>
    have hgo : t.after (.replicate (n + 1) none) =
        (Parse.advance t t.begin).1.go t (.replicate n none) := rfl
    rw [hgo, hopened] at hfinished
    have hmem := mem_stepPoints_of_walk ht hnone hwalk hb hcomes rfl rfl horigin hfinished
    rw [← hopened] at hmem
    exact List.mem_append_right _ hmem

/-! ## Reparsing -/

/-- What the documents and settings of a history have to be like for a parse to do no more than one
from scratch: documents have positions, and the margins stay the same. -/
def EqualMargins (before after : Nat) (document : String) (config : Config) : Prop :=
  Document.length document ≤ maxPosition ∧ config.marginBefore = before ∧
    config.marginAfter = after

/-- A parse of one task does no more than that of another, and nothing twice. -/
structure Spares (t u : Task) : Prop where
  /-- Where the parse makes a step of matching, the other one makes a step in the same state. -/
  visited : ∀ p, t.Comes p → steps t p = true →
    p.point ∈ stepPoints u u.begin (.replicate u.stepBound none)
  /-- The parse never goes back. -/
  forward : ∀ p, t.Comes p → p.pos ≤ (Parse.advance t p).1.pos
  /-- No two steps are made at one position, wherever the parse is to be broken off. -/
  once : ∀ requests, ((stepPoints t t.begin requests).map Point.pos).Pairwise (· < ·)
  /-- Left alone, both come to an end, the parse after no more steps than the other one. -/
  work : ∃ p parsed q again, u.run = some (p, parsed) ∧ t.run = some (q, again) ∧
    q.stats.matched ≤ p.stats.matched ∧ q.stats.forcedErrors ≤ p.stats.forcedErrors

theorem Comes.of_mem_stepPoints {requests : List (Option Nat)} {p : Parse} (hp : t.Comes p)
    {a : Point} (ha : a ∈ stepPoints t p requests) :
    ∃ q, t.Comes q ∧ steps t q = true ∧ q.point = a := by
  induction requests generalizing p with
  | nil => cases ha
  | cons request rest ih =>
    have hasked := hp.asked request
    rw [Parse.stepPoints] at ha
    rcases List.mem_append.mp ha with ha | ha
    · split at ha
      · rename_i hsteps
        exact ⟨_, hasked, hsteps, (List.mem_singleton.mp ha).symm⟩
      · cases ha
    · exact ih hasked.advance ha

/-- A parse whose steps are all made where another one makes steps too, and never twice, does no
more work. -/
theorem Steers.stats_le {u : Task} (h : t.Steers) (hstride : ∀ a, t.stride a = u.stride a)
    {requests requests' : List (Option Nat)}
    (hvisited : ∀ p, t.Comes p → steps t p = true →
      p.point ∈ stepPoints u u.begin requests') :
    (t.after requests).stats.matched ≤ (u.after requests').stats.matched ∧
      (t.after requests).stats.forcedErrors ≤ (u.after requests').stats.forcedErrors := by
  have hnodup : (stepPoints t t.begin requests).Nodup := by
    refine (h.inOrder_stepPoints requests t.comes_begin).1.imp ?_
    rintro a b hlt rfl
    exact Nat.lt_irrefl _ hlt
  have hsubset : stepPoints t t.begin requests ⊆ stepPoints u u.begin requests' := by
    intro a ha
    obtain ⟨q, hq, hsteps, rfl⟩ := t.comes_begin.of_mem_stepPoints ha
    exact hvisited q hq hsteps
  have hsubperm := List.subperm_of_subset hnodup hsubset
  obtain ⟨hmatched, hforced⟩ := Parse.stats_go t t.begin requests
  obtain ⟨hmatched', hforced'⟩ := Parse.stats_go u u.begin requests'
  rw [after, after, hmatched, hforced, hmatched', hforced']
  simp only [hstride]
  exact ⟨Nat.add_le_add_left (hsubperm.countP_le _) _, Nat.add_le_add_left (hsubperm.countP_le _) _⟩

/-- A parse that takes chunks from a parse of the document before does no more than a parse from
scratch: it makes its steps where that one makes them, in the same states, and never goes back. -/
theorem spares_of_lineage {grammar : Grammar} {before after : Nat}
    (h : Lineage grammar (EqualMargins before after) t) :
    t.Spares (fresh t.grammar t.document t.config) := by
  have hsucceeds : ∀ {t : Task}, Lineage grammar (EqualMargins before after) t →
      t.grammar = grammar ∧ EqualMargins before after t.document t.config ∧
        ∃ t₀, t.Succeeds t₀ False := by
    intro t ht
    refine ht.succeeds_of (fun _ _ hok => ⟨hok.1, False.elim⟩) fun _ _ _ _ hok hok' => ?_
    exact ⟨hok'.2.1.trans hok.2.1.symm, hok'.2.2.trans hok.2.2.symm⟩
  obtain ⟨rfl, hok, t₀, ht⟩ := hsucceeds h
  generalize hu : fresh t.grammar t.document t.config = u
  obtain ⟨-, -, t₁, hscratch⟩ := hsucceeds (.first hok : Lineage t.grammar _ _)
  rw [hu] at hscratch
  have halike : Alike u t := by
    subst hu
    exact ⟨rfl, ht.follows.whole, rfl, rfl, rfl⟩
  have hdocument : t.document = u.document := by rw [← hu]; rfl
  have horigin : t.origin = u.origin := by rw [← hu]; rfl
  have hstride := stride_congr halike hdocument
  have hsteers := ht.follows.steers
  have hvisited : ∀ p, t.Comes p → steps t p = true →
      p.point ∈ stepPoints u u.begin (.replicate u.stepBound none) := by
    intro p hp hsteps
    obtain ⟨hrunning, hend, -⟩ := steps_iff.mp hsteps
    have htraced := (hp.holds ht.kept).running hrunning
    obtain ⟨rs, hwalk, -⟩ := htraced.trail.covers
    have hlt := Parse.lt_stop_of_not_atEnd hend
    rw [htraced.laid.stop_eq, hdocument] at hlt
    have hthere := hwalk.congr (fun a => (hstride a).symm) hdocument.symm
    rw [horigin] at hthere
    have hnone : u.fragments = [] := by rw [← hu]; rfl
    refine mem_stepPoints hscratch.follows.whole hnone hthere hlt ?_
    exact hscratch.follows.steers.progresses.finished _
      (Nat.le_of_eq (List.length_replicate ..).symm)
  refine ⟨hvisited, fun p hp => (hsteers.pos_le hp).1, fun requests => ?_, ?_⟩
  · exact List.pairwise_map.mpr (hsteers.inOrder_stepPoints requests t.comes_begin).1
  · obtain ⟨p, parsed, hparsed⟩ := hscratch.follows.steers.progresses.result
    obtain ⟨q, again, hagain⟩ := hsteers.progresses.result
    refine ⟨p, parsed, q, again, hparsed, hagain, ?_⟩
    obtain rfl := Parse.go_of_runFrom hparsed
    obtain rfl := Parse.go_of_runFrom hagain
    exact hsteers.stats_le hstride hvisited

theorem spares_editedGroups :
    Lineage editedGroups.grammar (EqualMargins 1 1) editedGroups ∧
      editedGroups.Spares
        (fresh editedGroups.grammar editedGroups.document editedGroups.config) := by
  have hlineage : Lineage editedGroups.grammar (EqualMargins 1 1) editedGroups :=
    lineage_editedGroups ⟨by decide +kernel, rfl, rfl⟩ ⟨by decide +kernel, rfl, rfl⟩
  exact ⟨hlineage, spares_of_lineage hlineage⟩

end Task

end RegionTree
