import RegionTree.IntervalSet
set_option autoImplicit false

/-!
# Ranges of a document

Parts of a document may be parsed as one text.  They are a set of positions in separated
intervals.
-/

namespace RegionTree.Ranges

/-- All positions of a document of a given length. -/
def whole (length : Nat) : IntervalSet := .ofList [⟨0, length⟩]

/-- The first position, 0 if there is none. -/
def start (r : IntervalSet) : Nat := (r.intervals.head?.map Interval.start).getD 0

/-- The end of the last interval, 0 if there is none. -/
def stop (r : IntervalSet) : Nat := (r.intervals.getLast?.map Interval.stop).getD 0

/-- A position in a gap moved to the start of the next interval, `last` if there is none. -/
def clampIn (last : Nat) (pos : Nat) : List Interval → Nat
  | [] => last
  | i :: rest => if pos < i.stop then max pos i.start else clampIn last pos rest

/-- A position in a gap, or at the end of an interval, moved to the start of the next. -/
def clamp (r : IntervalSet) (pos : Nat) : Nat := clampIn (stop r) pos r.intervals

end RegionTree.Ranges
