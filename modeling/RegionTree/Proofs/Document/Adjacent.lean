import Mathlib.Order.Bounds.Defs
import Mathlib.Order.Monotone.Defs
import RegionTree.Proofs.Document.Reading
set_option autoImplicit false

/-!
# Adjacent reads

`Document.floor` goes back byte by byte, and there is always a boundary to stop at: it finds the
last one that is neither past the position nor past the end.  Since a position is moved to the same
boundary whether a read stops or starts there, two reads that meet at a position give what one read
does, and any number of them that reach from the start past the end give the whole document
(`Document.read_adjacent`).
-/

namespace RegionTree.Document

open Text

/-! ## The last boundary -/

/-- Going back from a position, one byte at a time, to where no character is straddled.  From 0
there is no way back. -/
inductive GoesBack (s : String) : Nat → Nat → Prop where
  | stop {pos : Nat} : isBoundary s pos = true → GoesBack s pos pos
  | back {pos bound : Nat} :
      isBoundary s (pos + 1) = false → GoesBack s pos bound → GoesBack s (pos + 1) bound

/-- Going back comes to an end, because 0 is a boundary. -/
theorem goesBack_floorFrom (s : String) (pos : Nat) : GoesBack s pos (floorFrom s pos) := by
  induction pos with
  | zero => exact .stop ((isBoundary_iff s 0).mpr (boundary_zero _))
  | succ pos ih =>
    unfold floorFrom
    split
    · rename_i h
      exact .stop h
    · rename_i h
      exact .back (Bool.eq_false_iff.mpr h) ih

theorem isGreatest_floor (s : String) (pos : Nat) :
    IsGreatest {bound | Boundary s.toList bound ∧ bound ≤ min pos (length s)} (floor s pos) := by
  refine ⟨⟨boundary_floor s pos, Nat.le_min.mpr ⟨floor_le s pos, floor_le_length s pos⟩⟩, ?_⟩
  rintro bound ⟨hbound, hle⟩
  exact le_floor hbound (Nat.le_trans hle (Nat.min_le_left _ _))

/-! ## Reads one after the other -/

/-- A read that starts where another stops goes on with the next character. -/
theorem read_append_read (s : String) {a b c : Nat} (hab : a ≤ b) (hbc : b ≤ c) :
    read s a b ++ read s b c = read s a c := by
  have hwhole := takeBytes_read (s := s) (Nat.le_trans hab hbc)
  rw [takeBytes_read hbc, takeBytes_read hab, List.append_assoc] at hwhole
  apply String.toList_injective
  rw [String.toList_append]
  exact List.append_cancel_left hwhole

/-- The texts read from one position to the next, of positions that follow a first one. -/
def readAll (s : String) : Nat → List Nat → List String
  | _, [] => []
  | start, stop :: rest => read s start stop :: readAll s stop rest

/-- Nothing is read up to the place where reading starts. -/
theorem read_self (s : String) (pos : Nat) : read s pos pos = "" := by
  have htwice := congrArg String.toList (read_append_read s (Nat.le_refl pos) (Nat.le_refl pos))
  rw [String.toList_append, List.append_right_eq_self] at htwice
  exact String.toList_eq_nil_iff.mp htwice

/-- The induction is on the reads: those after the first make up one read. -/
theorem join_readAll (s : String) {start : Nat} {stops : List Nat}
    (h : (start :: stops).IsChain (· ≤ ·)) :
    start ≤ stops.getLastD start ∧
      String.join (readAll s start stops) = read s start (stops.getLastD start) := by
  induction stops generalizing start with
  | nil => exact ⟨Nat.le_refl start, (read_self s start).symm⟩
  | cons stop rest ih =>
    obtain ⟨hle, hrest⟩ := List.isChain_cons_cons.mp h
    obtain ⟨hlast, hjoin⟩ := ih hrest
    rw [List.getLastD_cons]
    refine ⟨Nat.le_trans hle hlast, ?_⟩
    rw [readAll, String.join_cons, hjoin, read_append_read s hle hlast]

/-- Reading from the start past the end gives the document. -/
theorem read_all {s : String} {pos : Nat} (h : length s ≤ pos) : read s 0 pos = s := by
  apply String.toList_injective
  refine toList_read (a := []) (b := []) (by simp) (floor_of_boundary (boundary_zero _)) ?_
  rw [floor_eq, List.nil_append]
  have hwhole := takeBytes_append_of_le (b := []) (n := pos) (length_eq s ▸ h)
  rw [List.append_nil, takeBytes_nil, List.append_nil] at hwhole
  rw [hwhole]

/-- A document is read at any positions.  Each is moved to the last boundary that is neither past
it nor past the end, and going back byte by byte comes to it; this keeps the order of positions,
and boundaries stay where they are.  Reads that meet at a position give what one read does, and
reads that follow one another from the start past the end give the document. -/
theorem read_adjacent (s : String) :
    (∀ pos, IsGreatest {bound | Boundary s.toList bound ∧ bound ≤ min pos (length s)}
        (floor s pos) ∧
      GoesBack s (min pos (length s)) (floor s pos)) ∧
      Monotone (floor s) ∧
      (∀ pos, floor s (floor s pos) = floor s pos) ∧
      (∀ a b c, a ≤ b → b ≤ c → read s a b ++ read s b c = read s a c) ∧
      ∀ stops, (0 :: stops).IsChain (· ≤ ·) → length s ≤ stops.getLastD 0 →
        String.join (readAll s 0 stops) = s := by
  refine ⟨fun pos => ⟨isGreatest_floor s pos, goesBack_floorFrom s _⟩, fun _ _ => floor_mono s,
    fun pos => floor_of_boundary (boundary_floor s pos),
    fun a b c => read_append_read s, fun stops hchain hend => ?_⟩
  rw [(join_readAll s hchain).2, read_all hend]

/-- Reads that meet inside a character of two bytes and stop past the end. -/
theorem read_adjacent_split :
    (0 ≤ 2 ∧ 2 ≤ 9) ∧ read "aé b" 0 2 ++ read "aé b" 2 9 = read "aé b" 0 9 ∧
      String.join (readAll "aé b" 0 [2, 2, 4, 9]) = "aé b" := by
  obtain ⟨-, -, -, hsplit, hall⟩ := read_adjacent "aé b"
  exact ⟨by decide, hsplit 0 2 9 (by decide) (by decide),
    hall [2, 2, 4, 9] (by simp) (by decide +kernel)⟩

end RegionTree.Document
