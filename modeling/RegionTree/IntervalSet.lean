set_option autoImplicit false

/-!
# Sets of numbers as separated intervals

A set of natural numbers is held as half-open intervals in increasing order, each ending strictly
below the start of the next.  Character classes (sets of code points) and document ranges (sets of
byte positions) are both such sets.

`IntervalSet.ofList` brings any list of intervals into this form; the other set operations are
built on it, on `complement`, and on the fact that a set of numbers below a bound is determined by
what lies outside of it.
-/

namespace RegionTree

/-- The numbers `n` with `start ≤ n < stop`. -/
structure Interval where
  start : Nat
  stop : Nat
  deriving DecidableEq, Repr, Inhabited

namespace Interval

/-- Whether `n` lies in the interval. -/
def contains (i : Interval) (n : Nat) : Bool :=
  decide (i.start ≤ n) && decide (n < i.stop)

/-- An interval that ends at or before its start holds no number. -/
def isEmpty (i : Interval) : Bool :=
  decide (i.stop ≤ i.start)

/-- The interval that holds `n` alone. -/
def single (n : Nat) : Interval :=
  ⟨n, n + 1⟩

theorem contains_iff (i : Interval) (n : Nat) :
    i.contains n = true ↔ i.start ≤ n ∧ n < i.stop := by
  simp [contains]

theorem isEmpty_iff (i : Interval) : i.isEmpty = true ↔ ∀ n, i.contains n = false := by
  constructor
  · intro h n
    simp only [isEmpty, decide_eq_true_eq] at h
    simp only [contains, Bool.and_eq_false_iff, decide_eq_false_iff_not]
    omega
  · intro h
    have := h i.start
    simp only [contains, Bool.and_eq_false_iff, decide_eq_false_iff_not] at this
    simp only [isEmpty, decide_eq_true_eq]
    omega

end Interval

/-- A set of numbers as intervals in increasing order with a gap between neighbours. -/
structure IntervalSet where
  intervals : List Interval
  deriving DecidableEq, Repr, Inhabited

namespace IntervalSet

/-- The set that holds nothing. -/
def empty : IntervalSet := ⟨[]⟩

/-- Whether some interval of an increasing list holds `n`; the search ends at the first interval
that starts above `n`. -/
def containsIn : List Interval → Nat → Bool
  | [], _ => false
  | i :: rest, n =>
    if n < i.start then false
    else if n < i.stop then true
    else containsIn rest n

/-- Whether `n` is in the set. -/
def contains (s : IntervalSet) (n : Nat) : Bool :=
  containsIn s.intervals n

/-- Joins intervals that overlap or touch, in a list sorted by start; `current` is the interval
being extended. -/
def join (current : Interval) : List Interval → List Interval
  | [] => [current]
  | i :: rest =>
    if i.start ≤ current.stop then join ⟨current.start, max current.stop i.stop⟩ rest
    else current :: join i rest

/-- Joins the intervals of a list sorted by start. -/
def joinAll : List Interval → List Interval
  | [] => []
  | i :: rest => join i rest

/-- The set of all numbers in some interval of `l`: empty intervals are dropped, the others are
sorted by start (stably), and those that overlap or touch are joined. -/
def ofList (l : List Interval) : IntervalSet :=
  ⟨joinAll ((l.filter fun i => !i.isEmpty).mergeSort fun a b => decide (a.start ≤ b.start))⟩

/-- The numbers in at least one of two sets. -/
def union (a b : IntervalSet) : IntervalSet :=
  ofList (a.intervals ++ b.intervals)

/-- The numbers in at least one set of a list. -/
def unionAll (l : List IntervalSet) : IntervalSet :=
  ofList (l.flatMap IntervalSet.intervals)

/-- The gaps of an increasing list from `start` up to `bound`. -/
def gaps (bound : Nat) : Nat → List Interval → List Interval
  | start, [] => if start < bound then [⟨start, bound⟩] else []
  | start, i :: rest =>
    if start < i.start then ⟨start, i.start⟩ :: gaps bound i.stop rest
    else gaps bound i.stop rest

/-- The numbers below `bound` outside of the set. -/
def complement (bound : Nat) (s : IntervalSet) : IntervalSet :=
  ⟨gaps bound 0 s.intervals⟩

/-- The numbers below `bound` in both sets. -/
def inter (bound : Nat) (a b : IntervalSet) : IntervalSet :=
  complement bound (union (complement bound a) (complement bound b))

/-- The numbers below `bound` in `a` but not in `b`. -/
def diff (bound : Nat) (a b : IntervalSet) : IntervalSet :=
  inter bound a (complement bound b)

/-- The numbers below `bound` in exactly one of two sets. -/
def symmDiff (bound : Nat) (a b : IntervalSet) : IntervalSet :=
  diff bound (union a b) (inter bound a b)

@[simp] theorem contains_empty (n : Nat) : empty.contains n = false := rfl

theorem exists_of_containsIn {l : List Interval} {n : Nat} (h : containsIn l n = true) :
    ∃ i ∈ l, i.contains n = true := by
  induction l with
  | nil => cases h
  | cons i rest ih =>
    rw [containsIn] at h
    split at h
    · cases h
    · next hstart =>
      split at h
      · next hstop =>
        exact ⟨i, List.mem_cons_self, (i.contains_iff n).mpr ⟨Nat.not_lt.mp hstart, hstop⟩⟩
      · obtain ⟨j, hj, hn⟩ := ih h
        exact ⟨j, List.mem_cons_of_mem _ hj, hn⟩

/-- What intervals that were joined hold, one of them holds. -/
theorem exists_of_mem_join {current i : Interval} {l : List Interval} {n : Nat}
    (hi : i ∈ join current l) (hn : i.contains n = true) :
    ∃ j ∈ current :: l, j.contains n = true := by
  induction l generalizing current with
  | nil => exact ⟨i, hi, hn⟩
  | cons next rest ih =>
    rw [join] at hi
    split at hi
    · next htouch =>
      obtain ⟨j, hj, hn⟩ := ih hi
      rcases List.mem_cons.mp hj with rfl | hj
      · rw [Interval.contains_iff] at hn
        dsimp only at hn
        by_cases hlt : n < current.stop
        · exact ⟨current, List.mem_cons_self, (current.contains_iff n).mpr ⟨hn.1, hlt⟩⟩
        · have hcontains : next.contains n = true :=
            (next.contains_iff n).mpr ⟨by omega, by omega⟩
          exact ⟨next, by simp, hcontains⟩
      · exact ⟨j, by simp [hj], hn⟩
    · rcases List.mem_cons.mp hi with rfl | hi
      · exact ⟨i, List.mem_cons_self, hn⟩
      · obtain ⟨j, hj, hn⟩ := ih hi
        exact ⟨j, List.mem_cons_of_mem _ hj, hn⟩

/-- What the set of some intervals holds, one of them holds. -/
theorem exists_of_contains_ofList {l : List Interval} {n : Nat}
    (h : (ofList l).contains n = true) : ∃ i ∈ l, i.contains n = true := by
  obtain ⟨i, hi, hn⟩ := exists_of_containsIn h
  have hsorted : ∃ j ∈ (l.filter fun i => !i.isEmpty).mergeSort fun a b =>
      decide (a.start ≤ b.start), j.contains n = true := by
    rw [ofList] at hi
    dsimp only at hi
    cases hlist : (l.filter fun i => !i.isEmpty).mergeSort fun a b =>
        decide (a.start ≤ b.start) with
    | nil =>
      rw [hlist] at hi
      cases hi
    | cons first rest =>
      rw [hlist] at hi
      exact exists_of_mem_join hi hn
  obtain ⟨j, hj, hn⟩ := hsorted
  exact ⟨j, (List.mem_filter.mp (List.mem_mergeSort.mp hj)).1, hn⟩

end IntervalSet

end RegionTree
