import RegionTree.Parse
import RegionTree.Proofs.Document.Reading
set_option autoImplicit false

/-!
# Ranges of a document

Ranges are kept as separated intervals whose ends are boundaries of the document.  A position is
moved into the ranges by `Ranges.clamp`: it never moves back, it never leaves the ranges, and it
stays at a boundary (`Ranges.Regular.clamp`).
-/

namespace RegionTree

namespace IntervalSet

/-- Intervals that hold something, in increasing order with gaps between them. -/
structure Separated (l : List Interval) : Prop where
  nonempty : ∀ i ∈ l, i.start < i.stop
  apart : l.Pairwise fun a b => a.stop < b.start

/-- Joining intervals that are sorted by start separates them; none starts before the first. -/
theorem separated_join {current : Interval} {l : List Interval}
    (hcurrent : current.start < current.stop) (hl : ∀ i ∈ l, i.start < i.stop)
    (hfirst : ∀ i ∈ l, current.start ≤ i.start)
    (hsorted : l.Pairwise fun a b => a.start ≤ b.start) :
    Separated (join current l) ∧ ∀ i ∈ join current l, current.start ≤ i.start := by
  induction l generalizing current with
  | nil => exact ⟨⟨by simpa [join] using hcurrent, by simp [join]⟩, by simp [join]⟩
  | cons i rest ih =>
    obtain ⟨hhead, htail⟩ := List.pairwise_cons.mp hsorted
    have hrest : ∀ j ∈ rest, j.start < j.stop := fun j hj => hl j (by simp [hj])
    unfold join
    split
    · have hlonger : current.start < max current.stop i.stop :=
        Nat.lt_of_lt_of_le hcurrent (Nat.le_max_left _ _)
      have hjoined : (⟨current.start, max current.stop i.stop⟩ : Interval).start <
          (⟨current.start, max current.stop i.stop⟩ : Interval).stop := hlonger
      exact ih hjoined hrest (fun j hj => hfirst j (by simp [hj])) htail
    · rename_i hgap
      obtain ⟨⟨hnonempty, hapart⟩, hlow⟩ := ih (hl i (by simp)) hrest hhead htail
      refine ⟨⟨?_, List.pairwise_cons.mpr ⟨?_, hapart⟩⟩, ?_⟩
      · intro j hj
        rcases List.mem_cons.mp hj with rfl | hj
        · exact hcurrent
        · exact hnonempty j hj
      · intro j hj
        have := hlow j hj
        omega
      · intro j hj
        rcases List.mem_cons.mp hj with rfl | hj
        · exact Nat.le_refl _
        · exact Nat.le_trans (hfirst i (by simp)) (hlow j hj)

/-- The ends of joined intervals are among those of the intervals. -/
theorem ends_join {P : Nat → Prop} {current : Interval} {l : List Interval}
    (hcurrent : P current.start ∧ P current.stop) (hl : ∀ i ∈ l, P i.start ∧ P i.stop) :
    ∀ i ∈ join current l, P i.start ∧ P i.stop := by
  induction l generalizing current with
  | nil => simpa [join] using hcurrent
  | cons i rest ih =>
    have hrest : ∀ j ∈ rest, P j.start ∧ P j.stop := fun j hj => hl j (by simp [hj])
    have hi := hl i (by simp)
    unfold join
    split
    · refine ih ⟨hcurrent.1, ?_⟩ hrest
      rcases Nat.le_total current.stop i.stop with h | h
      · rw [Nat.max_eq_right h]
        exact hi.2
      · rw [Nat.max_eq_left h]
        exact hcurrent.2
    · intro j hj
      rcases List.mem_cons.mp hj with rfl | hj
      · exact hcurrent
      · exact ih hi hrest j hj

/-- The intervals of a list that hold something are sorted by start, and then joined. -/
theorem ofList_cases (l : List Interval) :
    ((ofList l).intervals = [] ∧ ∀ i ∈ l, i.stop ≤ i.start) ∨
      ∃ first rest, (ofList l).intervals = join first rest ∧
        (first :: rest).Pairwise (fun a b => a.start ≤ b.start) ∧
        ∀ i, i ∈ first :: rest ↔ i ∈ l ∧ i.start < i.stop := by
  have htrans : ∀ a b c : Interval, decide (a.start ≤ b.start) = true →
      decide (b.start ≤ c.start) = true → decide (a.start ≤ c.start) = true := by
    simpa using fun a b c => Nat.le_trans
  have htotal : ∀ a b : Interval,
      (decide (a.start ≤ b.start) || decide (b.start ≤ a.start)) = true := by
    simpa using fun a b => Nat.le_total _ _
  have hsorted := List.pairwise_mergeSort htrans htotal (l.filter fun i => !i.isEmpty)
  have hmem : ∀ i, i ∈ (l.filter fun i => !i.isEmpty).mergeSort
      (fun a b => decide (a.start ≤ b.start)) ↔ i ∈ l ∧ i.start < i.stop := by
    intro i
    rw [List.mem_mergeSort, List.mem_filter]
    simp [Interval.isEmpty]
  unfold ofList
  cases hl : (l.filter fun i => !i.isEmpty).mergeSort (fun a b => decide (a.start ≤ b.start)) with
  | nil =>
    rw [hl] at hmem
    refine .inl ⟨rfl, fun i hi => Nat.le_of_not_lt fun hlt => ?_⟩
    exact absurd ((hmem i).mpr ⟨hi, hlt⟩) List.not_mem_nil
  | cons first rest =>
    rw [hl] at hsorted hmem
    exact .inr ⟨first, rest, rfl, hsorted.imp fun h => by simpa using h, hmem⟩

theorem separated_ofList (l : List Interval) : Separated (ofList l).intervals := by
  rcases ofList_cases l with ⟨hnil, -⟩ | ⟨first, rest, hjoin, hsorted, hmem⟩
  · rw [hnil]
    exact ⟨by simp, by simp⟩
  · obtain ⟨hhead, htail⟩ := List.pairwise_cons.mp hsorted
    have hnonempty : ∀ i ∈ first :: rest, i.start < i.stop := fun i hi => ((hmem i).mp hi).2
    rw [hjoin]
    exact (separated_join (hnonempty first (by simp)) (fun i hi => hnonempty i (by simp [hi]))
      hhead htail).1

theorem ends_ofList {P : Nat → Prop} {l : List Interval} (h : ∀ i ∈ l, P i.start ∧ P i.stop) :
    ∀ i ∈ (ofList l).intervals, P i.start ∧ P i.stop := by
  rcases ofList_cases l with ⟨hnil, -⟩ | ⟨first, rest, hjoin, -, hmem⟩
  · simp [hnil]
  · have hall : ∀ i ∈ first :: rest, P i.start ∧ P i.stop := fun i hi => h i ((hmem i).mp hi).1
    rw [hjoin]
    exact ends_join (hall first (by simp)) fun i hi => hall i (by simp [hi])

end IntervalSet

namespace Ranges

open IntervalSet (Separated)
open Text (Boundary)

/-- Separated intervals after the first lie behind it. -/
theorem stop_le_start {i : Interval} {rest : List Interval} (h : Separated (i :: rest)) :
    ∀ j ∈ rest, i.stop ≤ j.start :=
  fun j hj => Nat.le_of_lt ((List.pairwise_cons.mp h.apart).1 j hj)

theorem separated_tail {i : Interval} {rest : List Interval} (h : Separated (i :: rest)) :
    Separated rest :=
  ⟨fun j hj => h.nonempty j (by simp [hj]), (List.pairwise_cons.mp h.apart).2⟩

/-- Whether a position lies in one of the intervals. -/
def Holds (r : IntervalSet) (pos : Nat) : Prop :=
  ∃ i ∈ r.intervals, i.start ≤ pos ∧ pos < i.stop

theorem stop_le {r : IntervalSet} (h : Separated r.intervals) {i : Interval}
    (hi : i ∈ r.intervals) : i.stop ≤ stop r := by
  obtain ⟨intervals⟩ := r
  have hlast : ∀ (l : List Interval), Separated l → ∀ i ∈ l,
      i.stop ≤ (l.getLast?.map Interval.stop).getD 0 := by
    intro l
    induction l with
    | nil => simp
    | cons j rest ih =>
      intro hl i hi
      obtain ⟨hhead, htail⟩ := List.pairwise_cons.mp hl.apart
      have hrest : Separated rest := ⟨fun k hk => hl.nonempty k (by simp [hk]), htail⟩
      cases rest with
      | nil =>
        obtain rfl : i = j := by simpa using hi
        exact Nat.le_refl _
      | cons k more =>
        rw [List.getLast?_cons_cons]
        rcases List.mem_cons.mp hi with rfl | hi
        · have hk := ih hrest k (by simp)
          have := hhead k (by simp)
          have := hrest.nonempty k (by simp)
          omega
        · exact ih hrest i hi
  exact hlast intervals h i hi

theorem Holds.lt_stop {r : IntervalSet} (h : Separated r.intervals) {pos : Nat}
    (hpos : Holds r pos) : pos < stop r := by
  obtain ⟨i, hi, -, hlt⟩ := hpos
  exact Nat.lt_of_lt_of_le hlt (stop_le h hi)

/-- Ranges of a document: separated, with boundaries as ends. -/
structure Regular (document : String) (r : IntervalSet) : Prop where
  separated : Separated r.intervals
  ends : ∀ i ∈ r.intervals, Boundary document.toList i.start ∧ Boundary document.toList i.stop

theorem regular_ofList {document : String} {l : List Interval}
    (h : ∀ i ∈ l, Boundary document.toList i.start ∧ Boundary document.toList i.stop) :
    Regular document (.ofList l) :=
  ⟨IntervalSet.separated_ofList l, IntervalSet.ends_ofList h⟩

theorem whole_intervals (length : Nat) :
    (whole length).intervals = if length = 0 then [] else [⟨0, length⟩] := by
  rw [whole, IntervalSet.ofList]
  split
  · rename_i h
    simp [Interval.isEmpty, h, IntervalSet.joinAll]
  · rename_i h
    simp [Interval.isEmpty, h, IntervalSet.joinAll, IntervalSet.join]

@[simp] theorem start_whole (length : Nat) : start (whole length) = 0 := by
  rw [start, whole_intervals]
  split <;> rfl

@[simp] theorem stop_whole (length : Nat) : stop (whole length) = length := by
  rw [stop, whole_intervals]
  split
  · rename_i h
    exact h.symm
  · rfl

theorem regular_whole (document : String) :
    Regular document (whole (Document.length document)) := by
  apply regular_ofList
  intro i hi
  obtain rfl := List.mem_singleton.mp hi
  rw [Document.length_eq]
  exact ⟨Text.boundary_zero _, Text.boundary_byteLength _⟩

/-- Where a parse may stand: in the ranges at a boundary, or at their end. -/
structure Spot (document : String) (r : IntervalSet) (pos : Nat) : Prop where
  boundary : Boundary document.toList pos
  inside : Holds r pos ∨ pos = stop r

namespace Regular

variable {document : String} {r : IntervalSet}

theorem boundary_stop (h : Regular document r) : Boundary document.toList (stop r) := by
  unfold stop
  cases hlast : r.intervals.getLast? with
  | none => exact Text.boundary_zero _
  | some i => exact (h.ends i (List.mem_of_getLast? hlast)).2

theorem spot_stop (h : Regular document r) : Spot document r (stop r) :=
  ⟨h.boundary_stop, .inr rfl⟩

/-- The ranges start at a spot. -/
theorem spot_start (h : Regular document r) : Spot document r (start r) := by
  obtain ⟨intervals⟩ := r
  cases intervals with
  | nil => exact h.spot_stop
  | cons i rest =>
    have hi := h.ends i (by simp)
    exact ⟨hi.1, .inl ⟨i, by simp, Nat.le_refl _, h.separated.nonempty i (by simp)⟩⟩

theorem spot_le {pos : Nat} (h : Regular document r) (hpos : Spot document r pos) :
    pos ≤ stop r := by
  rcases hpos.inside with hin | rfl
  · exact Nat.le_of_lt (hin.lt_stop h.separated)
  · exact Nat.le_refl _

/-- A boundary is moved to a spot, and not back unless it is past the end. -/
theorem clamp {pos : Nat} (h : Regular document r) (hpos : Boundary document.toList pos) :
    Spot document r (clamp r pos) ∧ min pos (stop r) ≤ clamp r pos := by
  have hin : ∀ l : List Interval, (∀ i ∈ l, i ∈ r.intervals) →
      Spot document r (clampIn (stop r) pos l) ∧
        min pos (stop r) ≤ clampIn (stop r) pos l := by
    intro l
    induction l with
    | nil => exact fun _ => ⟨h.spot_stop, Nat.min_le_right _ _⟩
    | cons i rest ih =>
      intro hl
      have hi := hl i (by simp)
      unfold clampIn
      split
      · rename_i hlt
        have hnonempty := h.separated.nonempty i hi
        refine ⟨⟨?_, .inl ⟨i, hi, Nat.le_max_right _ _, by omega⟩⟩, by omega⟩
        rcases Nat.le_total pos i.start with hle | hle
        · rw [Nat.max_eq_right hle]
          exact (h.ends i hi).1
        · rw [Nat.max_eq_left hle]
          exact hpos
      · exact ih fun j hj => hl j (by simp [hj])
  exact hin r.intervals fun i hi => hi

end Regular

/-- In the whole document only positions past the end are moved. -/
theorem clamp_whole {length pos : Nat} (h : pos ≤ length) : clamp (whole length) pos = pos := by
  rw [clamp, whole_intervals, stop_whole]
  split
  · unfold clampIn
    omega
  · rw [clampIn, clampIn]
    dsimp only
    split <;> omega

end Ranges

namespace Task

/-- The ranges to which a task is restricted end at boundaries. -/
theorem regular_restrict (t : Task) (ranges : List Interval) :
    Ranges.Regular t.document (t.restrict ranges).ranges := by
  apply Ranges.regular_ofList
  intro i hi
  obtain ⟨j, -, rfl⟩ := List.mem_map.mp hi
  exact ⟨Document.boundary_floor _ _, Document.boundary_floor _ _⟩

end Task

end RegionTree
