import Mathlib.Algebra.GroupWithZero.Nat
import RegionTree.Proofs.Document.Windows
set_option autoImplicit false

/-!
# Ranges put together

The texts of the ranges of a document, put together, are its excerpt.  A position of the document
has a place there, its rank: the number of positions of the ranges before it.

A window that reaches over all ranges shows the excerpt (`Window.around_excerpt`), and to translate
a position of the window into the document is to find one of that rank (`rank_startIn`,
`rank_stopIn`).
-/

namespace RegionTree

open Text (Boundary byteLength)
open IntervalSet (Separated)

namespace Ranges

/-- How many positions of some intervals lie before a position. -/
def rankIn (pos : Nat) (l : List Interval) : Nat := (l.map fun i => min pos i.stop - i.start).sum

/-- How many positions of the ranges lie before a position. -/
def rank (r : IntervalSet) (pos : Nat) : Nat := rankIn pos r.intervals

/-- The texts of the ranges, put together. -/
def excerpt (document : String) (r : IntervalSet) : String :=
  String.join (r.intervals.map fun i => Document.read document i.start i.stop)

@[simp] theorem rankIn_nil (pos : Nat) : rankIn pos [] = 0 := rfl

@[simp] theorem rankIn_cons (pos : Nat) (i : Interval) (rest : List Interval) :
    rankIn pos (i :: rest) = min pos i.stop - i.start + rankIn pos rest := rfl

theorem rankIn_mono {pos pos' : Nat} (h : pos ≤ pos') (l : List Interval) :
    rankIn pos l ≤ rankIn pos' l := by
  induction l with
  | nil => exact Nat.le_refl 0
  | cons i rest ih =>
    rw [rankIn_cons, rankIn_cons]
    omega

/-- Nothing lies before a position in front of the intervals. -/
theorem rankIn_eq_zero {pos : Nat} {l : List Interval} (h : ∀ i ∈ l, pos ≤ i.start) :
    rankIn pos l = 0 := by
  induction l with
  | nil => rfl
  | cons i rest ih =>
    have hfirst := h i (by simp)
    rw [rankIn_cons, ih fun j hj => h j (by simp [hj])]
    omega

/-- Moving a position into the ranges passes over none of theirs: the induction is on the intervals
that are still looked at. -/
theorem rankIn_clampIn {l : List Interval} (h : Separated l) {last : Nat}
    (hlast : ∀ i ∈ l, i.stop ≤ last) (pos : Nat) :
    rankIn (clampIn last pos l) l = rankIn pos l ∧ min pos last ≤ clampIn last pos l := by
  induction l with
  | nil => exact ⟨rfl, Nat.min_le_right _ _⟩
  | cons i rest ih =>
    have hnonempty := h.nonempty i (by simp)
    have hbehind := stop_le_start h
    unfold clampIn
    split
    · rename_i hlt
      refine ⟨?_, by omega⟩
      rw [rankIn_cons, rankIn_cons, rankIn_eq_zero fun j hj => ?_, rankIn_eq_zero fun j hj => ?_]
      · omega
      · have := hbehind j hj
        omega
      · have := hbehind j hj
        omega
    · obtain ⟨hrank, hle⟩ := ih (separated_tail h) fun j hj => hlast j (by simp [hj])
      have hend := hlast i (by simp)
      refine ⟨?_, hle⟩
      rw [rankIn_cons, rankIn_cons, hrank]
      omega

/-- The rank counts the positions of the ranges. -/
theorem rank_succ {r : IntervalSet} (h : Separated r.intervals) (pos : Nat)
    [Decidable (Holds r pos)] :
    rank r (pos + 1) = rank r pos + if Holds r pos then 1 else 0 := by
  have hall : ∀ l : List Interval, Separated l →
      (Holds ⟨l⟩ pos → rankIn (pos + 1) l = rankIn pos l + 1) ∧
        (¬ Holds ⟨l⟩ pos → rankIn (pos + 1) l = rankIn pos l) := by
    intro l
    induction l with
    | nil => exact fun _ => ⟨fun ⟨_, hi, _⟩ => absurd hi List.not_mem_nil, fun _ => rfl⟩
    | cons i rest ih =>
      intro hl
      obtain ⟨hin, hout⟩ := ih (separated_tail hl)
      have hbehind := stop_le_start hl
      rw [rankIn_cons, rankIn_cons]
      by_cases hfirst : i.start ≤ pos ∧ pos < i.stop
      · -- the positions of one interval are in no other
        have hothers : ¬ Holds ⟨rest⟩ pos := by
          rintro ⟨j, hj, hstart, -⟩
          have := hbehind j hj
          omega
        have hrest := hout hothers
        exact ⟨fun _ => by omega, fun hnot => absurd ⟨i, by simp, hfirst⟩ hnot⟩
      · have hsame : Holds ⟨i :: rest⟩ pos ↔ Holds ⟨rest⟩ pos := by
          constructor
          · rintro ⟨j, hj, hpos⟩
            rcases List.mem_cons.mp hj with rfl | hj
            · exact absurd hpos hfirst
            · exact ⟨j, hj, hpos⟩
          · rintro ⟨j, hj, hpos⟩
            exact ⟨j, List.mem_cons_of_mem _ hj, hpos⟩
        rw [hsame]
        refine ⟨fun h => ?_, fun h => ?_⟩
        · have := hin h
          omega
        · have := hout h
          omega
  obtain ⟨hin, hout⟩ := hall r.intervals h
  split
  · rename_i hpos
    exact hin hpos
  · rename_i hpos
    exact hout hpos

theorem rank_le {r : IntervalSet} (h : Separated r.intervals) (pos : Nat) : rank r pos ≤ pos := by
  classical
  induction pos with
  | zero => exact Nat.le_of_eq (rankIn_eq_zero fun _ _ => Nat.zero_le _)
  | succ pos ih =>
    rw [rank_succ h]
    split <;> omega

/-- No position of the ranges lies before their start. -/
theorem rank_start {r : IntervalSet} (h : Separated r.intervals) : rank r (start r) = 0 := by
  obtain ⟨intervals⟩ := r
  cases intervals with
  | nil => rfl
  | cons i rest =>
    have hbehind := stop_le_start h
    have hnonempty := h.nonempty i (by simp)
    refine rankIn_eq_zero fun j hj => ?_
    have hfirst : start ⟨i :: rest⟩ = i.start := rfl
    rw [hfirst]
    rcases List.mem_cons.mp hj with rfl | hj
    · exact Nat.le_refl _
    · have := hbehind j hj
      omega

theorem rank_clamp {r : IntervalSet} (h : Separated r.intervals) (pos : Nat) :
    rank r (clamp r pos) = rank r pos :=
  (rankIn_clampIn h (fun _ hi => stop_le h hi) pos).1

/-- In a whole document the rank of a position is the position. -/
theorem rank_whole {length pos : Nat} (h : pos ≤ length) : rank (whole length) pos = pos := by
  rw [rank, whole_intervals]
  split
  · rw [rankIn_nil]
    omega
  · rw [rankIn_cons, rankIn_nil]
    dsimp only
    omega

end Ranges

namespace Window

open Ranges

/-- The pieces of a window that shows intervals in full, from a window position on. -/
def piecesOf (offset : Nat) : List Interval → List WindowPiece
  | [] => []
  | i :: rest => ⟨offset, i.start, i.stop - i.start⟩ :: piecesOf (offset + (i.stop - i.start)) rest

/-- Adding the text of an interval. -/
theorem append_interval {document : String} {i : Interval} (hlt : i.start < i.stop)
    (hstart : Boundary document.toList i.start) (hstop : Boundary document.toList i.stop)
    (w : Window) :
    Document.length (Document.read document i.start i.stop) = i.stop - i.start ∧
      w.append document i.start i.stop =
        ⟨w.text ++ Document.read document i.start i.stop,
          w.pieces ++ [⟨Document.length w.text, i.start, i.stop - i.start⟩]⟩ := by
  have hfloor := Document.floor_of_boundary hstart
  have hfloor' := Document.floor_of_boundary hstop
  have hordered : Document.floor document i.start ≤ Document.floor document i.stop := by omega
  have hlength := (part_read hordered).2
  rw [hfloor, hfloor'] at hlength
  have hsize : Document.length (Document.read document i.start i.stop) = i.stop - i.start := by
    omega
  refine ⟨hsize, ?_⟩
  rw [append, hfloor, hfloor']
  dsimp only
  rw [if_neg (by omega), hsize]

theorem length_append (s s' : String) :
    Document.length (s ++ s') = Document.length s + Document.length s' := by
  rw [Document.length_eq, Document.length_eq, Document.length_eq, String.toList_append,
    Text.byteLength_append]

/-- A window that reaches over all ranges shows the excerpt. -/
theorem around_excerpt {document : String} {r : IntervalSet} (h : Regular document r)
    {pos before after : Nat} (hbefore : pos ≤ before) (hafter : Ranges.stop r ≤ after) :
    around r document pos before after = ⟨excerpt document r, piecesOf 0 r.intervals⟩ := by
  have hfold : ∀ (l : List Interval) (w : Window), (∀ i ∈ l, i ∈ r.intervals) →
      l.foldl (fun w i =>
          w.append document (max i.start (pos - before)) (min i.stop (pos + after))) w =
        ⟨w.text ++ String.join (l.map fun i => Document.read document i.start i.stop),
          w.pieces ++ piecesOf (Document.length w.text) l⟩ := by
    intro l
    induction l with
    | nil =>
      intro w _
      simp [piecesOf, String.join_nil]
    | cons i rest ih =>
      intro w hl
      have hi := hl i (by simp)
      have hend := Ranges.stop_le h.separated hi
      have hall : max i.start (pos - before) = i.start ∧ min i.stop (pos + after) = i.stop := by
        omega
      obtain ⟨hsize, happend⟩ :=
        append_interval (h.separated.nonempty i hi) (h.ends i hi).1 (h.ends i hi).2 w
      rw [List.foldl_cons, hall.1, hall.2, happend, ih _ fun j hj => hl j (by simp [hj])]
      dsimp only
      rw [List.map_cons, String.join_cons, length_append, hsize, piecesOf, String.append_assoc,
        List.append_assoc]
      rfl
  have hzero : Document.length "" = 0 := rfl
  rw [around, hfold r.intervals empty fun _ hi => hi, excerpt]
  dsimp only [empty]
  rw [hzero, String.empty_append, List.nil_append]

/-- Each interval has its piece. -/
theorem exists_piece {l : List Interval} {i : Interval} (hi : i ∈ l) (offset : Nat) :
    ∃ p ∈ piecesOf offset l, p.document = i.start ∧ p.length = i.stop - i.start := by
  induction l generalizing offset with
  | nil => cases hi
  | cons j rest ih =>
    rcases List.mem_cons.mp hi with rfl | hi
    · exact ⟨_, List.mem_cons_self, rfl, rfl⟩
    · obtain ⟨p, hp, heq⟩ := ih hi (offset + (j.stop - j.start))
      exact ⟨p, List.mem_cons_of_mem _ hp, heq⟩

theorem piecesOf_ne_nil {l : List Interval} (h : l ≠ []) : piecesOf 0 l ≠ [] := by
  obtain ⟨i, hi⟩ := List.exists_mem_of_ne_nil _ h
  obtain ⟨p, hp, -⟩ := exists_piece hi 0
  exact List.ne_nil_of_mem hp

theorem start_of_mem {l : List Interval} {offset : Nat} {p : WindowPiece}
    (hp : p ∈ piecesOf offset l) : ∃ i ∈ l, p.document = i.start := by
  induction l generalizing offset with
  | nil => cases hp
  | cons i rest ih =>
    rcases List.mem_cons.mp hp with rfl | hp
    · exact ⟨i, by simp, rfl⟩
    · obtain ⟨j, hj, heq⟩ := ih hp
      exact ⟨j, by simp [hj], heq⟩

/-- A position in a piece, or at its end, is as many positions of the intervals behind the first as
it is behind the start of the pieces. -/
theorem rankIn_of_mem {l : List Interval} (h : Separated l) {offset : Nat} {p : WindowPiece}
    (hp : p ∈ piecesOf offset l) {n : Nat} (hn : n ≤ p.length) :
    offset + rankIn (p.document + n) l = p.window + n := by
  induction l generalizing offset with
  | nil => cases hp
  | cons i rest ih =>
    have hnonempty := h.nonempty i (by simp)
    have hbehind := stop_le_start h
    rcases List.mem_cons.mp hp with rfl | hp
    · dsimp only at hn ⊢
      rw [rankIn_cons, rankIn_eq_zero fun j hj => ?_]
      · omega
      · have := hbehind j hj
        omega
    · obtain ⟨j, hj, heq⟩ := start_of_mem hp
      have hlow := hbehind j hj
      have hrest := ih (separated_tail h) hp
      rw [rankIn_cons]
      omega

variable {document : String} {r : IntervalSet}

theorem laid_excerpt (h : Regular document r) :
    Laid document 0 (piecesOf 0 r.intervals) (excerpt document r).toList := by
  have hlaid := (shows_around h 0 0 (Ranges.stop r)).laid
  rwa [around_excerpt h (Nat.le_refl 0) (Nat.le_refl _)] at hlaid

/-- The length of the excerpt is the rank of the end of the ranges. -/
theorem length_excerpt (h : Regular document r) :
    Document.length (excerpt document r) = rank r (Ranges.stop r) := by
  have hall : ∀ l : List Interval, (∀ i ∈ l, i ∈ r.intervals) →
      Document.length (String.join (l.map fun i => Document.read document i.start i.stop)) =
        rankIn (Ranges.stop r) l := by
    intro l
    induction l with
    | nil => exact fun _ => rfl
    | cons i rest ih =>
      intro hl
      have hi := hl i (by simp)
      have hend := Ranges.stop_le h.separated hi
      obtain ⟨hsize, -⟩ :=
        append_interval (h.separated.nonempty i hi) (h.ends i hi).1 (h.ends i hi).2 empty
      rw [List.map_cons, String.join_cons, length_append, hsize, rankIn_cons,
        ih fun j hj => hl j (by simp [hj]), Nat.min_eq_right hend]
  exact hall r.intervals fun _ hi => hi

/-- What starts somewhere in the excerpt starts in the document at a position of that rank. -/
theorem rank_startIn (h : Regular document r) (hne : r.intervals ≠ []) {n : Nat}
    (hn : n ≤ Document.length (excerpt document r)) :
    rank r (startIn (piecesOf 0 r.intervals) n) = n := by
  rw [Document.length_eq] at hn
  obtain ⟨p, hp, hlow, hhigh, heq⟩ :=
    (laid_excerpt h).startIn_mem (piecesOf_ne_nil hne) (Nat.zero_le n) (by omega)
  have hrank := rankIn_of_mem h.separated hp (n := n - p.window) (by omega)
  rw [heq, rank]
  omega

/-- What stops somewhere in the excerpt stops in the document at a position of that rank. -/
theorem rank_stopIn (h : Regular document r) (hne : r.intervals ≠ []) {n : Nat}
    (hn : n ≤ Document.length (excerpt document r)) :
    rank r (stopIn (piecesOf 0 r.intervals) n) = n := by
  rw [Document.length_eq] at hn
  obtain ⟨p, hp, hlow, hhigh, heq⟩ :=
    (laid_excerpt h).stopIn_mem (piecesOf_ne_nil hne) (Nat.zero_le n) (by omega)
  have hrank := rankIn_of_mem h.separated hp (n := n - p.window) (by omega)
  rw [heq, rank]
  omega

/-- A boundary in the ranges is a boundary in the excerpt, at its rank. -/
theorem boundary_rank (h : Regular document r) {pos : Nat} (hpos : Boundary document.toList pos)
    (hin : Holds r pos) :
    (Window.mk (excerpt document r) (piecesOf 0 r.intervals)).position pos = rank r pos ∧
      Boundary (excerpt document r).toList (rank r pos) ∧
      rank r pos < Document.length (excerpt document r) := by
  obtain ⟨i, hi, hstart, hstop⟩ := hin
  obtain ⟨p, hp, hfrom, hlength⟩ := exists_piece hi 0
  have hlaid := laid_excerpt h
  have hafter : p.document ≤ pos ∧ pos < p.document + p.length := by omega
  have hfind := hlaid.position_of_mem hp hafter.1 hafter.2
  obtain ⟨k, hk, hcut, hlt⟩ := hlaid.boundary_of_mem hp hpos (by omega) (by omega)
  have hrank := rankIn_of_mem h.separated hp (n := pos - p.document) (by omega)
  rw [Nat.zero_add, Nat.add_sub_cancel' (by omega)] at hrank
  have hplace : rank r pos = k := by
    rw [rank]
    omega
  rw [hplace, Document.length_eq]
  refine ⟨?_, hcut, hlt⟩
  rw [position, hfind]
  dsimp only
  omega

end Window

end RegionTree
