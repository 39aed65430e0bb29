import Mathlib
import RegionTree.Proofs.Document.Regions
set_option autoImplicit false

/-!
# The normal form of ranges

`IntervalSet.ofList` keeps the positions that some interval given to it holds, and separated
intervals are determined by the positions that they hold.  So ranges that cover the same positions
become the same set, in whatever order and pieces they are given, and `Ranges.clamp` finds the next
of these positions (`Ranges.ofList_canonical`).
-/

namespace RegionTree

open IntervalSet (Separated)

/-! ## What joined intervals hold -/

namespace IntervalSet

/-- Joining intervals that are sorted by start loses no number.  The induction is on the intervals
that are still to be joined; `current` grows with each of them that it takes in. -/
theorem exists_mem_join {current : Interval} {l : List Interval} {n : Nat}
    (hfirst : ∀ i ∈ l, current.start ≤ i.start)
    (hsorted : l.Pairwise fun a b => a.start ≤ b.start)
    (h : ∃ i ∈ current :: l, i.contains n = true) : ∃ i ∈ join current l, i.contains n = true := by
  induction l generalizing current with
  | nil => exact h
  | cons next rest ih =>
    obtain ⟨hhead, htail⟩ := List.pairwise_cons.mp hsorted
    have hnext := hfirst next List.mem_cons_self
    obtain ⟨i, hi, hn⟩ := h
    rw [List.mem_cons, List.mem_cons] at hi
    unfold join
    split
    · refine ih (fun j hj => hfirst j (List.mem_cons_of_mem _ hj)) htail ?_
      rcases hi with rfl | rfl | hi
      · refine ⟨_, List.mem_cons_self, ?_⟩
        rw [Interval.contains_iff] at hn ⊢
        exact ⟨hn.1, Nat.lt_of_lt_of_le hn.2 (Nat.le_max_left _ _)⟩
      · refine ⟨_, List.mem_cons_self, ?_⟩
        rw [Interval.contains_iff] at hn ⊢
        exact ⟨Nat.le_trans hnext hn.1, Nat.lt_of_lt_of_le hn.2 (Nat.le_max_right _ _)⟩
      · exact ⟨i, List.mem_cons_of_mem _ hi, hn⟩
    · rcases hi with rfl | hi
      · exact ⟨i, List.mem_cons_self, hn⟩
      · obtain ⟨j, hj, hcontains⟩ := ih hhead htail ⟨i, List.mem_cons.mpr hi, hn⟩
        exact ⟨j, List.mem_cons_of_mem _ hj, hcontains⟩

end IntervalSet

namespace Ranges

/-- The set of some intervals holds what one of them holds. -/
theorem holds_ofList (l : List Interval) (pos : Nat) :
    Holds (.ofList l) pos ↔ ∃ i ∈ l, i.start ≤ pos ∧ pos < i.stop := by
  unfold Holds
  simp only [← Interval.contains_iff]
  rcases IntervalSet.ofList_cases l with ⟨hnil, hempty⟩ | ⟨first, rest, hjoin, hsorted, hmem⟩
  · rw [hnil]
    constructor
    · rintro ⟨i, hi, -⟩
      exact absurd hi List.not_mem_nil
    · rintro ⟨i, hi, hpos⟩
      have := hempty i hi
      rw [Interval.contains_iff] at hpos
      omega
  · obtain ⟨hhead, htail⟩ := List.pairwise_cons.mp hsorted
    rw [hjoin]
    constructor
    · rintro ⟨i, hi, hpos⟩
      obtain ⟨j, hj, hcontains⟩ := IntervalSet.exists_of_mem_join hi hpos
      exact ⟨j, ((hmem j).mp hj).1, hcontains⟩
    · rintro ⟨i, hi, hpos⟩
      have hin := (Interval.contains_iff i pos).mp hpos
      exact IntervalSet.exists_mem_join hhead htail
        ⟨i, (hmem i).mpr ⟨hi, Nat.lt_of_le_of_lt hin.1 hin.2⟩, hpos⟩

/-! ## Separated intervals and their positions -/

section

variable {i : Interval} {rest : List Interval} (h : Separated (i :: rest))
include h

/-- The first of separated intervals starts at the least position. -/
theorem start_le_of_holds {pos : Nat} (hpos : Holds ⟨i :: rest⟩ pos) : i.start ≤ pos := by
  obtain ⟨j, hj, hstart, -⟩ := hpos
  rcases List.mem_cons.mp hj with rfl | hj
  · exact hstart
  · have := stop_le_start h j hj
    have := h.nonempty i List.mem_cons_self
    omega

theorem holds_start : Holds ⟨i :: rest⟩ i.start :=
  ⟨i, List.mem_cons_self, Nat.le_refl _, h.nonempty i List.mem_cons_self⟩

/-- Behind each of separated intervals there is a gap. -/
theorem not_holds_stop : ¬ Holds ⟨i :: rest⟩ i.stop := by
  rintro ⟨j, hj, hstart, hstop⟩
  rcases List.mem_cons.mp hj with rfl | hj
  · exact Nat.lt_irrefl _ hstop
  · have := (List.pairwise_cons.mp h.apart).1 j hj
    omega

/-- The intervals behind the first hold the positions that are not before its end. -/
theorem holds_tail (pos : Nat) : Holds ⟨rest⟩ pos ↔ i.stop ≤ pos ∧ Holds ⟨i :: rest⟩ pos := by
  constructor
  · rintro ⟨j, hj, hin⟩
    exact ⟨Nat.le_trans (stop_le_start h j hj) hin.1, j, List.mem_cons_of_mem _ hj, hin⟩
  · rintro ⟨hpos, j, hj, hin⟩
    rcases List.mem_cons.mp hj with rfl | hj
    · exact absurd hin.2 (Nat.not_lt.mpr hpos)
    · exact ⟨j, hj, hin⟩

end

/-- Where the first interval of two lists starts at one position, it does not end later in the one
than in the other: the end would be a gap of the other. -/
theorem stop_le_stop {i j : Interval} {rest rest' : List Interval}
    (h : Separated (i :: rest)) (hstart : j.start ≤ i.stop)
    (hsame : ∀ pos, Holds ⟨i :: rest⟩ pos ↔ Holds ⟨j :: rest'⟩ pos) : j.stop ≤ i.stop := by
  refine Nat.le_of_not_lt fun hlt => not_holds_stop h ((hsame i.stop).mpr ?_)
  exact ⟨j, List.mem_cons_self, hstart, hlt⟩

/-- Separated intervals that hold the same positions are the same. -/
theorem eq_of_holds_iff {l l' : List Interval} (h : Separated l) (h' : Separated l')
    (hsame : ∀ pos, Holds ⟨l⟩ pos ↔ Holds ⟨l'⟩ pos) : l = l' := by
  induction l generalizing l' with
  | nil =>
    cases l' with
    | nil => rfl
    | cons j rest' =>
      obtain ⟨i, hi, -⟩ := (hsame j.start).mpr (holds_start h')
      exact absurd hi List.not_mem_nil
  | cons i rest ih =>
    cases l' with
    | nil =>
      obtain ⟨j, hj, -⟩ := (hsame i.start).mp (holds_start h)
      exact absurd hj List.not_mem_nil
    | cons j rest' =>
      have hstart : i.start = j.start :=
        Nat.le_antisymm (start_le_of_holds h ((hsame j.start).mpr (holds_start h')))
          (start_le_of_holds h' ((hsame i.start).mp (holds_start h)))
      have hi := h.nonempty i List.mem_cons_self
      have hj := h'.nonempty j List.mem_cons_self
      have hstop : i.stop = j.stop :=
        Nat.le_antisymm (stop_le_stop h' (by omega) fun pos => (hsame pos).symm)
          (stop_le_stop h (by omega) hsame)
      obtain rfl : i = j := by
        cases i
        cases j
        simp_all
      congr 1
      refine ih (separated_tail h) (separated_tail h') fun pos => ?_
      rw [holds_tail h, holds_tail h', hsame]

/-! ## Moving positions into ranges -/

/-- A position is moved to the next one that is held, if there is one: the induction is on the
intervals that are still looked at. -/
theorem isLeast_clampIn {l : List Interval} (h : Separated l) (last pos : Nat) :
    IsLeast {next | pos ≤ next ∧ Holds ⟨l⟩ next} (clampIn last pos l) ∨
      (∀ next, pos ≤ next → ¬ Holds ⟨l⟩ next) ∧ clampIn last pos l = last := by
  induction l with
  | nil => exact .inr ⟨fun next _ ⟨_, hi, _⟩ => absurd hi List.not_mem_nil, rfl⟩
  | cons i rest ih =>
    have hnonempty := h.nonempty i List.mem_cons_self
    unfold clampIn
    split
    · rename_i hlt
      refine .inl ⟨⟨Nat.le_max_left _ _, i, List.mem_cons_self, Nat.le_max_right _ _, by omega⟩, ?_⟩
      exact fun next hnext => Nat.max_le.mpr ⟨hnext.1, start_le_of_holds h hnext.2⟩
    · rename_i hge
      have hsame : ∀ next, pos ≤ next → (Holds ⟨rest⟩ next ↔ Holds ⟨i :: rest⟩ next) := by
        intro next hnext
        rw [holds_tail h, and_iff_right (by omega)]
      rcases ih (separated_tail h) with ⟨⟨hle, hholds⟩, hleast⟩ | ⟨hnone, hlast⟩
      · refine .inl ⟨⟨hle, (hsame _ hle).mp hholds⟩, fun next hnext => ?_⟩
        exact hleast ⟨hnext.1, (hsame next hnext.1).mpr hnext.2⟩
      · exact .inr ⟨fun next hnext hin => hnone next hnext ((hsame next hnext).mpr hin), hlast⟩

/-- The ranges end right behind the last position that they hold, or at 0 if they hold none. -/
theorem isLeast_stop {r : IntervalSet} (h : Separated r.intervals) :
    IsLeast {bound | ∀ pos, Holds r pos → pos < bound} (stop r) := by
  refine ⟨fun pos hpos => hpos.lt_stop h, fun bound hbound => ?_⟩
  unfold stop
  cases hlast : r.intervals.getLast? with
  | none => exact Nat.zero_le _
  | some i =>
    have hi := List.mem_of_getLast? hlast
    have hnonempty := h.nonempty i hi
    have := hbound (i.stop - 1) ⟨i, hi, by omega, by omega⟩
    change i.stop ≤ bound
    omega

/-- Ranges in normal form.  They are not empty, with a gap behind each; they hold what one of the
given intervals holds, and intervals that hold the same give the same ranges.  A position is moved to
the next one that is held, or to the end behind the last one. -/
theorem ofList_canonical (l : List Interval) :
    Separated (IntervalSet.ofList l).intervals ∧
      (∀ pos, Holds (.ofList l) pos ↔ ∃ i ∈ l, i.start ≤ pos ∧ pos < i.stop) ∧
      (∀ l', IntervalSet.ofList l = .ofList l' ↔
        ∀ pos, (∃ i ∈ l, i.start ≤ pos ∧ pos < i.stop) ↔ ∃ i ∈ l', i.start ≤ pos ∧ pos < i.stop) ∧
      (∀ pos, IsLeast {next | pos ≤ next ∧ Holds (.ofList l) next} (clamp (.ofList l) pos) ∨
        (∀ next, pos ≤ next → ¬ Holds (.ofList l) next) ∧
          clamp (.ofList l) pos = stop (.ofList l)) ∧
      IsLeast {bound | ∀ pos, Holds (.ofList l) pos → pos < bound} (stop (.ofList l)) := by
  have hseparated := IntervalSet.separated_ofList l
  refine ⟨hseparated, holds_ofList l, fun l' => ⟨fun heq pos => ?_, fun hsame => ?_⟩,
    isLeast_clampIn hseparated _, isLeast_stop hseparated⟩
  · rw [← holds_ofList l, ← holds_ofList l', heq]
  · refine congrArg IntervalSet.mk (eq_of_holds_iff hseparated
      (IntervalSet.separated_ofList l') fun pos => ?_)
    exact (holds_ofList l pos).trans ((hsame pos).trans (holds_ofList l' pos).symm)

/-- Ranges out of order, one over another, one without positions. -/
example : IntervalSet.ofList [⟨5, 8⟩, ⟨0, 2⟩, ⟨1, 3⟩, ⟨4, 4⟩] = ⟨[⟨0, 3⟩, ⟨5, 8⟩]⟩ := by cbv

end Ranges

end RegionTree
