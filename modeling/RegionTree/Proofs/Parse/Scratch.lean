import RegionTree.Proofs.Parse.Course
set_option autoImplicit false

/-!
# Parses from scratch

A task without earlier parses is opened at the start of its ranges, without chunks, and from then
on a running parse of it only makes steps of matching.  So what holds of the opened parse and is
kept by a step of matching holds as long as the parse is running (`Task.kept_scratch`).
-/

namespace RegionTree.Task

open Parse (Kept)

variable {t : Task}

/-- The parse of a task after its first step, if there are no earlier parses. -/
def opened (t : Task) (breakOff : Option Nat) : Parse :=
  { t.begin with
    stage := .running
    start := Ranges.start t.ranges
    stop := Ranges.stop t.ranges
    pos := Ranges.start t.ranges
    breakOff }

theorem init_eq_opened (hnone : t.fragments = []) (breakOff : Option Nat) :
    Parse.init t { t.begin with breakOff } = t.opened breakOff := by
  unfold Parse.init
  rw [hnone]
  rfl

/-- A parse from scratch in any ranges stands in them, and has nothing to take over. -/
structure Unaided (t : Task) (p : Parse) : Prop where
  start_eq : p.start = Ranges.start t.ranges
  stop_eq : p.stop = Ranges.stop t.ranges
  spot : Ranges.Spot t.document t.ranges p.pos
  old : p.old = none

/-- What holds of an opened parse and is kept by steps of matching is kept by all that a parse from
scratch may do. -/
theorem kept_scratch {I : Parse → Prop} (ht : Ranges.Regular t.document t.ranges)
    (hnone : t.fragments = []) (hbreakOff : ∀ p breakOff, I p → I { p with breakOff })
    (hopened : ∀ breakOff, I (t.opened breakOff))
    (hstep : ∀ p, t.Unaided p → p.pos < Ranges.stop t.ranges → I p → I (Parse.matchStep t p)) :
    Kept t fun p => t.Unaided p ∧ I p where
  breakOff p breakOff hp := by
    obtain ⟨⟨hstart, hstop, hspot, hold⟩, hI⟩ := hp
    exact ⟨⟨hstart, hstop, hspot, hold⟩, hbreakOff p breakOff hI⟩
  begun breakOff := by
    rw [init_eq_opened hnone]
    exact ⟨⟨rfl, rfl, ht.spot_start, rfl⟩, hopened breakOff⟩
  spliced p old index hp _ hlook := by
    obtain ⟨hold, -⟩ := Parse.outlook_eq_take hlook
    rw [hp.1.old] at hold
    cases hold
  stepped p old hp hend hold := by
    obtain ⟨hp, hI⟩ := hp
    have hsame : { p with old } = p := by
      obtain rfl : old = p.old := hold.elim id fun h => h.trans hp.old.symm
      rfl
    have hlt := Parse.lt_stop_of_not_atEnd hend
    rw [hp.stop_eq] at hlt
    obtain ⟨-, hspot, -⟩ := stride_progress ht (a := p.point) hp.spot hlt
    obtain ⟨_, heq⟩ := Parse.matchStep_eq t p
    rw [hsame]
    refine ⟨?_, hstep p hp hlt hI⟩
    rw [heq]
    exact ⟨hp.start_eq, hp.stop_eq, hspot, hp.old⟩

/-- So every running parse of the task is one from scratch. -/
theorem Comes.unaided (ht : Ranges.Regular t.document t.ranges) (hnone : t.fragments = [])
    {p : Parse} (hp : t.Comes p) (hrunning : p.stage = .running) : t.Unaided p :=
  ((hp.holds (kept_scratch (I := fun _ => True) ht hnone (fun _ _ _ => trivial)
    (fun _ => trivial) fun _ _ _ _ => trivial)).running hrunning).1

/-- As long as it was not broken off and has not come to the end of the ranges, it takes over
nothing. -/
theorem Unaided.outlook_eq {p : Parse} (h : t.Unaided p) (hbreak : p.breakOff = none)
    (hlt : p.pos < Ranges.stop t.ranges) : p.atEnd = false ∧ Parse.outlook t p = .wait := by
  refine ⟨?_, by rw [Parse.outlook, h.old]⟩
  rw [Parse.atEnd, hbreak, h.stop_eq]
  simpa using hlt

end RegionTree.Task
