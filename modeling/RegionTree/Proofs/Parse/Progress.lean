import RegionTree.Proofs.Parse.Lineage
import RegionTree.Proofs.Parse.Scratch
set_option autoImplicit false

/-!
# Progress

Every running parse makes progress: an advance ends it, moves it forward to a boundary, or takes
over old chunks, and the latter happens at most once.  So every parse is finished after a number of
advances that its task bounds, and a character is skipped only where the margin does not hold it.

Two kinds of tasks are covered: those from scratch with any ranges, and those of a lineage.
-/

namespace RegionTree

open Text (Boundary byteLength)

/-! ## At most one splice -/

namespace Parse

/-- How often a parse may still take over old chunks. -/
def credit (p : Parse) : Nat :=
  match p.stage with
  | .fresh => 1
  | .running => p.old.isSome.toNat
  | .finished => 0

theorem credit_le_one (p : Parse) : p.credit ≤ 1 := by
  unfold credit
  split
  · exact Nat.le_refl 1
  · exact Bool.toNat_le _
  · exact Nat.zero_le 1

theorem credit_asked (p : Parse) (request : Option Nat) : (p.asked request).credit = p.credit := by
  obtain ⟨_, hasked⟩ := p.asked_eq request
  rw [hasked]
  rfl

/-- Taking over chunks uses up the credit, and no advance gives it back. -/
theorem takesOver_add_credit_le (t : Task) (p : Parse) :
    (takesOver t p).toNat + (advance t p).1.credit ≤ p.credit := by
  have hadvances := advances_advance t p
  generalize advance t p = q at hadvances
  cases hadvances with
  | begun hfresh =>
    have hnot : takesOver t p = false := by simp [takesOver, hfresh]
    have hcredit : p.credit = 1 := by rw [credit, hfresh]
    rw [hnot, hcredit, Bool.toNat_false, Nat.zero_add]
    exact credit_le_one _
  | idle hidle =>
    have hnot : takesOver t p = false := by simp [takesOver, hidle]
    rw [hnot, Bool.toNat_false, Nat.zero_add]
  | ended hrunning hend =>
    have hnot : takesOver t p = false := by simp [takesOver, hend]
    rw [hnot, Bool.toNat_false, Nat.zero_add]
    exact Nat.zero_le _
  | @spliced old index hrunning hend hlook =>
    obtain ⟨hold, -⟩ := outlook_eq_take hlook
    obtain ⟨_, _, _, _, _, hsplice, -⟩ := splice_eq t p old index
    have hafter : (splice t p old index).credit = 0 := by
      rw [hsplice, credit, hrunning]
      rfl
    have hbefore : p.credit = 1 := by
      rw [credit, hrunning, hold]
      rfl
    rw [hafter, hbefore]
    exact Bool.toNat_le _
  | @stepped old hrunning hend hnot hold =>
    obtain ⟨_, hstep⟩ := matchStep_eq t { p with old }
    have hafter : (matchStep t { p with old }).credit = old.isSome.toNat := by
      rw [hstep, credit, hrunning]
    have hbefore : p.credit = p.old.isSome.toNat := by rw [credit, hrunning]
    rw [hnot, hafter, hbefore, Bool.toNat_false, Nat.zero_add]
    rcases hold with rfl | rfl
    · exact Nat.le_refl _
    · exact Nat.zero_le _

theorem splices_le_credit (t : Task) (p : Parse) (requests : List (Option Nat)) :
    splices t p requests ≤ p.credit := by
  induction requests generalizing p with
  | nil => exact Nat.zero_le _
  | cons request rest ih =>
    have hstep := takesOver_add_credit_le t (p.asked request)
    have hrest := ih (advance t (p.asked request)).1
    rw [credit_asked] at hstep
    unfold splices
    omega

/-! ## One advance -/

/-- A parse that stands in the ranges of its task, and never goes back. -/
structure Steady (t : Task) (p : Parse) : Prop where
  stop_eq : p.stop = Ranges.stop t.ranges
  spot : Ranges.Spot t.document t.ranges p.pos
  splice : ∀ old index, p.atEnd = false → outlook t p = .take old index →
    p.pos ≤ (splice t p old index).pos

/-- A parse that went forward to a boundary in the ranges of its task. -/
structure Forward (t : Task) (p q : Parse) : Prop where
  stage : q.stage = .running
  lt : p.pos < q.pos
  boundary : Document.isBoundary t.document q.pos = true
  le : q.pos ≤ Ranges.stop t.ranges
  old : q.old = p.old ∨ q.old = none

/-- What an advance of a running parse may be: it gives a result, or makes a step of matching that
goes forward, or takes over old chunks.  A step skips a character only if the margin does not hold
it. -/
inductive Progress (t : Task) (p : Parse) : Parse × Option ParseResult → Prop where
  | ended {q : Parse} {parsed : ParseResult} : p.atEnd = true → q.stage = .finished →
      Progress t p (q, some parsed)
  | matched {q : Parse} : Forward t p q →
      q.stats = { p.stats with matched := p.stats.matched + 1 } → Progress t p (q, none)
  | forced {q : Parse} {front back : List Char} {c : Char} : Forward t p q →
      q.stats = { p.stats with forcedErrors := p.stats.forcedErrors + 1 } →
      t.document.toList = front ++ c :: back → byteLength front = p.pos →
      t.config.marginAfter < c.utf8Size → Progress t p (q, none)
  | spliced {q : Parse} {kept : Nat} : takesOver t p = true → q.stage = .running →
      p.old ≠ none → q.old = none → p.pos ≤ q.pos →
      q.stats = { p.stats with keptRight := kept } → Progress t p (q, none)

theorem Steady.progress {t : Task} (ht : Ranges.Regular t.document t.ranges) {p : Parse}
    (hp : p.Steady t) (hrunning : p.stage = .running) : p.Progress t (advance t p) := by
  have hadvances := advances_advance t p
  generalize advance t p = q at hadvances
  cases hadvances with
  | begun hfresh => rw [hfresh] at hrunning; cases hrunning
  | idle hidle => rw [hidle] at hrunning; cases hrunning
  | ended _ hend => exact .ended hend rfl
  | @spliced old index _ hend hlook =>
    obtain ⟨hold, -⟩ := outlook_eq_take hlook
    have hle := hp.splice old index hend hlook
    obtain ⟨_, _, _, _, kept, hsplice, -⟩ := splice_eq t p old index
    rw [hsplice] at hle ⊢
    have htakes : takesOver t p = true := by simp [takesOver, hrunning, hend, hlook]
    have hoffered : p.old ≠ none := by
      rw [hold]
      simp
    exact .spliced htakes hrunning hoffered rfl hle rfl
  | @stepped old _ hend hnot hold =>
    have hlt := lt_stop_of_not_atEnd hend
    rw [hp.stop_eq] at hlt
    obtain ⟨hforward, hspot, hskip⟩ := Task.stride_progress ht (a := p.point) hp.spot hlt
    obtain ⟨checkpoint, hstep⟩ := matchStep_eq t { p with old }
    rw [hstep]
    have hmoved : ∀ stats chunks checkpoint, Forward t p
        { p with
          old, checkpoint, chunks, stats
          pos := (t.stride p.point).next.pos
          state := (t.stride p.point).next.state } := by
      intro _ _ _
      exact ⟨hrunning, hforward, (Document.isBoundary_iff _ _).mpr hspot.boundary,
        ht.spot_le hspot, hold⟩
    cases hforced : (t.stride p.point).forced with
    | true =>
      obtain ⟨front, c, back, hs, hfront, hmargin⟩ := hskip hforced
      refine .forced (hmoved _ _ _) ?_ hs hfront hmargin
      rw [count, if_pos]
      exact hforced
    | false =>
      refine .matched (hmoved _ _ _) ?_
      rw [count, if_neg]
      exact Bool.eq_false_iff.mp hforced

/-! ## Termination -/

/-- A bound on the advances up to the end of a parse. -/
def remaining (t : Task) (p : Parse) : Nat :=
  match p.stage with
  | .fresh => Ranges.stop t.ranges + 3
  | .running => Ranges.stop t.ranges - p.pos + p.old.isSome.toNat + 1
  | .finished => 0

theorem remaining_asked (t : Task) (p : Parse) (request : Option Nat) :
    (p.asked request).remaining t = p.remaining t := by
  obtain ⟨_, hasked⟩ := p.asked_eq request
  rw [hasked]
  rfl

end Parse

namespace Task

open Parse (Steady Kept While)

/-- All running parses of a task make steady progress. -/
structure Steers (t : Task) : Prop where
  regular : Ranges.Regular t.document t.ranges
  steady : ∀ {p : Parse}, t.Comes p → p.stage = .running → p.Steady t

variable {t : Task}

/-- Every advance comes closer to the end. -/
theorem Steers.remaining_lt (h : t.Steers) {p : Parse} (hp : t.Comes p)
    (hstage : p.stage ≠ .finished) : (Parse.advance t p).1.remaining t < p.remaining t := by
  cases hnow : p.stage with
  | finished => exact absurd hnow hstage
  | fresh =>
    obtain ⟨breakOff, rfl⟩ := hp.fresh hnow
    obtain ⟨pos, _, _, _, old, _, hinit, -⟩ := Parse.init_eq t breakOff
    have hfirst : (Parse.advance t { t.begin with breakOff }).1 =
        Parse.init t { t.begin with breakOff } := rfl
    have hold := Bool.toNat_le old.isSome
    have hbefore : ({ t.begin with breakOff } : Parse).remaining t = Ranges.stop t.ranges + 3 := rfl
    rw [hfirst, hinit, hbefore, Parse.remaining]
    dsimp only
    omega
  | running =>
    have hprogress := (h.steady hp hnow).progress h.regular hnow
    have hbefore : p.remaining t = Ranges.stop t.ranges - p.pos + p.old.isSome.toNat + 1 := by
      rw [Parse.remaining, hnow]
    rw [hbefore]
    have hforward : ∀ {q : Parse}, Parse.Forward t p q →
        q.remaining t < Ranges.stop t.ranges - p.pos + p.old.isSome.toNat + 1 := by
      intro q hq
      have hlt := hq.lt
      have hle := hq.le
      have hold : q.old.isSome.toNat ≤ p.old.isSome.toNat := by
        rcases hq.old with hsame | hnone
        · rw [hsame]
        · rw [hnone]
          exact Nat.zero_le _
      rw [Parse.remaining, hq.stage]
      dsimp only
      omega
    generalize Parse.advance t p = next at hprogress
    cases hprogress with
    | ended _ hfinished =>
      rw [Parse.remaining, hfinished]
      exact Nat.succ_pos _
    | matched hq _ => exact hforward hq
    | forced hq _ _ _ _ => exact hforward hq
    | @spliced q _ _ hrunning hsome hnone hle _ =>
      have hone : p.old.isSome.toNat = 1 := by rw [Option.isSome_iff_ne_none.mpr hsome]; rfl
      rw [Parse.remaining, hrunning, hnone, hone]
      simp only [Option.isSome_none, Bool.toNat_false]
      omega

/-- After as many advances as remain, a parse is finished. -/
theorem Steers.finished_of_le (h : t.Steers) (requests : List (Option Nat)) {p : Parse}
    (hp : t.Comes p) (hle : p.remaining t ≤ requests.length) :
    (p.go t requests).stage = .finished := by
  induction requests generalizing p with
  | nil =>
    unfold Parse.remaining at hle
    show p.stage = .finished
    cases hnow : p.stage with
    | finished => rfl
    | fresh => simp [hnow] at hle
    | running => simp [hnow] at hle
  | cons request rest ih =>
    suffices hnext : (Parse.advance t (p.asked request)).1.remaining t ≤ rest.length from
      ih (hp.asked request).advance hnext
    have hasked := p.remaining_asked t request
    by_cases hfinished : (p.asked request).stage = .finished
    · have hidle : Parse.advance t (p.asked request) = (p.asked request, none) := by
        rw [Parse.advance, hfinished]
      rw [hidle, Parse.remaining, hfinished]
      exact Nat.zero_le _
    · have hlt := h.remaining_lt (hp.asked request) hfinished
      rw [List.length_cons] at hle
      omega

/-- A parse that is not finished yet gives its result after as many advances as remain. -/
theorem Steers.exists_runFrom (h : t.Steers) (fuel : Nat) {p : Parse} (hp : t.Comes p)
    (hstage : p.stage ≠ .finished) (hle : p.remaining t ≤ fuel) :
    ∃ q parsed, Parse.runFrom t fuel p = some (q, parsed) := by
  induction fuel generalizing p with
  | zero =>
    have hlt := h.remaining_lt hp hstage
    omega
  | succ fuel ih =>
    unfold Parse.runFrom
    have hless := Nat.le_of_lt_succ (Nat.lt_of_lt_of_le (h.remaining_lt hp hstage) hle)
    have hadvances := Parse.advances_advance t p
    have hcomes := hp.advance
    generalize Parse.advance t p = next at hadvances hless hcomes
    cases hadvances with
    | ended _ _ => exact ⟨_, _, rfl⟩
    | idle hidle => exact absurd hidle hstage
    | begun hfresh =>
      obtain ⟨breakOff, rfl⟩ := hp.fresh hfresh
      exact ih hcomes (by rw [Parse.stage_init]; simp) hless
    | spliced hrunning _ _ =>
      exact ih hcomes (by rw [Parse.stage_splice, hrunning]; simp) hless
    | stepped hrunning _ _ _ =>
      exact ih hcomes (by rw [Parse.stage_matchStep, hrunning]; simp) hless

theorem remaining_begin_le (t : Task) : t.begin.remaining t ≤ t.stepBound := by
  have hbegin : t.begin.remaining t = Ranges.stop t.ranges + 3 := rfl
  rw [stepBound, hbegin]
  omega

/-- With a margin that holds every character, none is skipped. -/
theorem Steers.forcedErrors_advance (h : t.Steers) (hmargin : 4 ≤ t.config.marginAfter) {p : Parse}
    (hp : t.Comes p) (hnone : p.stats.forcedErrors = 0) :
    (Parse.advance t p).1.stats.forcedErrors = 0 := by
  cases hnow : p.stage with
  | fresh =>
    obtain ⟨breakOff, rfl⟩ := hp.fresh hnow
    obtain ⟨_, _, _, _, _, stats, hinit, hstats, -⟩ := Parse.init_eq t breakOff
    have hfirst : (Parse.advance t { t.begin with breakOff }).1 =
        Parse.init t { t.begin with breakOff } := rfl
    rw [hfirst, hinit]
    exact hstats
  | finished =>
    have hidle : Parse.advance t p = (p, none) := by rw [Parse.advance, hnow]
    rw [hidle]
    exact hnone
  | running =>
    have hprogress := (h.steady hp hnow).progress h.regular hnow
    have hended : p.atEnd = true → (Parse.advance t p).1.stats = p.stats := by
      intro hend
      rw [Parse.advance, hnow]
      dsimp only
      rw [if_pos hend]
    generalize Parse.advance t p = next at hprogress hended
    cases hprogress with
    | ended hend _ =>
      rw [hended hend]
      exact hnone
    | matched _ hstats =>
      rw [hstats]
      exact hnone
    | @forced q front back c _ _ _ _ hsmall =>
      have hsize := c.utf8Size_le_four
      omega
    | spliced _ _ _ _ _ hstats =>
      rw [hstats]
      exact hnone

theorem Steers.forcedErrors_eq_zero (h : t.Steers) (hmargin : 4 ≤ t.config.marginAfter)
    (requests : List (Option Nat)) {p : Parse} (hp : t.Comes p) (hnone : p.stats.forcedErrors = 0) :
    (p.go t requests).stats.forcedErrors = 0 := by
  induction requests generalizing p with
  | nil => exact hnone
  | cons request rest ih =>
    have hasked := hp.asked request
    refine ih hasked.advance (h.forcedErrors_advance hmargin hasked ?_)
    obtain ⟨_, hsame⟩ := p.asked_eq request
    rw [hsame]
    exact hnone

/-! ## The tasks that make steady progress -/

/-- A task steers if its running parses stand in the ranges and never take over chunks. -/
theorem steers_of_kept {I : Parse → Prop} (hr : Ranges.Regular t.document t.ranges)
    (hI : Kept t I) (hstands : ∀ p, I p → p.stop = Ranges.stop t.ranges ∧
      Ranges.Spot t.document t.ranges p.pos ∧
      ∀ old index, p.atEnd = false → Parse.outlook t p ≠ .take old index) : t.Steers := by
  refine ⟨hr, fun hp hrunning => ?_⟩
  obtain ⟨hstop, hspot, hnever⟩ := hstands _ ((hp.holds hI).running hrunning)
  exact ⟨hstop, hspot, fun old index hend hlook => absurd hlook (hnever old index hend)⟩

theorem steers_restrict (grammar : Grammar) (document : String) (config : Config)
    (ranges : List Interval) : ((fresh grammar document config).restrict ranges).Steers := by
  have hregular := (fresh grammar document config).regular_restrict ranges
  refine ⟨hregular, fun hp hrunning => ?_⟩
  have hunaided := hp.unaided hregular rfl hrunning
  refine ⟨hunaided.stop_eq, hunaided.spot, ?_⟩
  intro old index _ hlook
  obtain ⟨hold, -⟩ := Parse.outlook_eq_take hlook
  rw [hunaided.old] at hold
  cases hold

theorem Follows.steers {old : String} (h : t.Follows old) : t.Steers := by
  refine ⟨h.whole.regular, fun hp hrunning => ?_⟩
  have hlaid := (hp.holds h.kept).running hrunning
  refine ⟨hlaid.stop_eq.trans h.whole.stop_eq.symm, h.whole.spot hlaid.fits.boundary,
    fun o index _ hlook => ?_⟩
  obtain ⟨c, mid, d, rest, htaken⟩ := h.takenOver hlaid hlook
  exact htaken.le_pos

/-- Every parse of a task makes progress and comes to an end. -/
structure Progresses (t : Task) : Prop where
  /-- An advance of a running parse ends it, goes forward to a boundary in the ranges, or takes over
  old chunks. -/
  advance : ∀ p, t.Comes p → p.stage = .running → p.Progress t (Parse.advance t p)
  /-- Old chunks are taken over at most once. -/
  once : ∀ requests, Parse.splices t t.begin requests ≤ 1
  /-- Whenever it is to be broken off, a parse is finished after as many advances as its task
  bounds. -/
  finished : ∀ requests, t.stepBound ≤ requests.length → (t.after requests).stage = .finished
  /-- Left alone, a parse gives a result. -/
  result : ∃ p parsed, t.run = some (p, parsed)
  /-- With a margin that holds every character, none is skipped. -/
  unforced : 4 ≤ t.config.marginAfter → ∀ p, t.Comes p → p.stats.forcedErrors = 0

theorem Steers.progresses (h : t.Steers) : t.Progresses where
  advance p hp hrunning := (h.steady hp hrunning).progress h.regular hrunning
  once requests :=
    Nat.le_trans (Parse.splices_le_credit t t.begin requests) (Parse.credit_le_one _)
  finished requests hle :=
    h.finished_of_le requests t.comes_begin (Nat.le_trans t.remaining_begin_le hle)
  result :=
    h.exists_runFrom t.stepBound t.comes_begin (by simp [begin]) t.remaining_begin_le
  unforced hmargin p hp := by
    obtain ⟨requests, request, rfl⟩ := hp
    obtain ⟨_, hasked⟩ := (t.after requests).asked_eq request
    rw [hasked]
    exact h.forcedErrors_eq_zero hmargin requests t.comes_begin rfl

/-- Left alone, a parse gives the result of one that came to the end, and what is kept by all that a
running parse may do holds of it. -/
theorem Steers.run_eq (h : t.Steers) {I : Parse → Prop} (hI : Kept t I) :
    ∃ p last, t.run = some (p, Parse.result t last) ∧ I last ∧ last.stop ≤ last.pos := by
  obtain ⟨p, parsed, hrun⟩ := h.progresses.result
  obtain ⟨last, hlast, hresult, hend⟩ := t.comes_begin.of_runFrom rfl hrun
  obtain ⟨hlast, rfl⟩ := hlast.finished hI hresult
  exact ⟨p, last, hrun, hlast, hend⟩

/-- A parse makes progress and comes to an end, if it is one from scratch in any ranges, or one of a
whole document with the chunks of a parse of the document before. -/
theorem progresses_of_lineage (h : (∃ grammar document config ranges,
      t = (fresh grammar document config).restrict ranges) ∨
    Lineage t.grammar (fun document _ => Document.length document ≤ maxPosition) t) :
    t.Progresses := by
  rcases h with ⟨grammar, document, config, ranges, rfl⟩ | hlineage
  · exact (steers_restrict grammar document config ranges).progresses
  · obtain ⟨old, hfollows⟩ := hlineage.follows fun _ _ hle => hle
    exact hfollows.steers.progresses

theorem progresses_editedGroups :
    Lineage editedGroups.grammar (fun document _ => Document.length document ≤ maxPosition)
        editedGroups ∧
      editedGroups.Progresses := by
  have hlineage : Lineage editedGroups.grammar
      (fun document _ => Document.length document ≤ maxPosition) editedGroups :=
    lineage_editedGroups (by decide +kernel) (by decide +kernel)
  exact ⟨hlineage, progresses_of_lineage (.inr hlineage)⟩

end Task

end RegionTree
