set_option autoImplicit false

/-!
# Documents

A document is a string that is read by byte positions.  Any position will do: one past the end is
moved to the end, and one inside a character to its start.  So what is read is always text, and
two adjacent reads put together are one read.
-/

namespace RegionTree.Document

/-- The number of bytes. -/
def length (s : String) : Nat := s.utf8ByteSize

/-- Whether no character straddles a position. -/
def isBoundary (s : String) (pos : Nat) : Bool := String.Pos.Raw.isValid s ⟨pos⟩

/-- The last boundary at or before a position of the document. -/
def floorFrom (s : String) : Nat → Nat
  | 0 => 0
  | pos + 1 => if isBoundary s (pos + 1) then pos + 1 else floorFrom s pos

/-- The last boundary at or before a position. -/
def floor (s : String) (pos : Nat) : Nat := floorFrom s (min pos (length s))

/-- The text between two positions, both moved to boundaries; empty if the second comes before the
first. -/
def read (s : String) (start stop : Nat) : String :=
  let start := floor s start
  String.Pos.Raw.extract s ⟨start⟩ ⟨max start (floor s stop)⟩

/-- The document with the text between two positions replaced. -/
def replace (s : String) (start stop : Nat) (text : String) : String :=
  read s 0 start ++ text ++ read s stop (length s)

theorem floorFrom_le (s : String) (pos : Nat) : floorFrom s pos ≤ pos := by
  induction pos with
  | zero => simp [floorFrom]
  | succ pos ih =>
    simp only [floorFrom]
    split <;> omega

theorem floor_le (s : String) (pos : Nat) : floor s pos ≤ pos :=
  Nat.le_trans (floorFrom_le s _) (Nat.min_le_left _ _)

theorem floor_le_length (s : String) (pos : Nat) : floor s pos ≤ length s :=
  Nat.le_trans (floorFrom_le s _) (Nat.min_le_right _ _)

end RegionTree.Document
