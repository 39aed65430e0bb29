import Mathlib.Data.String.Basic
import RegionTree.Document
import RegionTree.Proofs.Text.Cut
set_option autoImplicit false

/-!
# Reading documents

What the byte positions of a document mean for its characters: a boundary of the document is a
boundary of the list of its characters, `floor` is the last boundary at or before a position, and
`read` gives the characters between two of them.
-/

namespace RegionTree.Document

open Text

theorem byteLength_eq_utf8Len (cs : List Char) : byteLength cs = String.utf8Len cs := by
  induction cs with
  | nil => rfl
  | cons c rest ih => rw [byteLength_cons, String.utf8Len_cons, ih, Nat.add_comm]

theorem length_eq (s : String) : length s = byteLength s.toList := by
  rw [byteLength_eq_utf8Len, String.utf8Len_toList]
  rfl

@[simp] theorem length_ofList (cs : List Char) : length (String.ofList cs) = byteLength cs := by
  rw [length_eq, String.toList_ofList]

theorem isBoundary_iff (s : String) (pos : Nat) :
    isBoundary s pos = true ↔ Boundary s.toList pos := by
  rw [isBoundary, String.Pos.Raw.isValid_eq_true_iff, String.Pos.Raw.isValid_iff_exists_append]
  constructor
  · rintro ⟨a, b, rfl, hpos⟩
    refine ⟨a.toList, b.toList, String.toList_append, ?_⟩
    rw [← length_eq]
    exact (congrArg String.Pos.Raw.byteIdx hpos).symm
  · rintro ⟨a, b, hs, hpos⟩
    refine ⟨String.ofList a, String.ofList b, ?_, ?_⟩
    · rw [← String.ofList_append, ← hs, String.ofList_toList]
    · apply String.Pos.Raw.ext
      rw [← hpos, ← length_ofList]
      rfl

/-! ## Boundaries below a position -/

theorem boundary_floorFrom (s : String) (pos : Nat) : Boundary s.toList (floorFrom s pos) := by
  induction pos with
  | zero => exact boundary_zero _
  | succ pos ih =>
    unfold floorFrom
    split
    · rename_i h
      exact (isBoundary_iff s _).mp h
    · exact ih

theorem le_floorFrom {s : String} {n : Nat} (h : Boundary s.toList n) :
    ∀ {pos : Nat}, n ≤ pos → n ≤ floorFrom s pos := by
  intro pos
  induction pos with
  | zero => exact fun hn => hn
  | succ pos ih =>
    intro hn
    unfold floorFrom
    split
    · exact hn
    · rename_i hb
      refine ih (Nat.le_of_lt_succ (Nat.lt_of_le_of_ne hn ?_))
      rintro rfl
      exact hb ((isBoundary_iff s _).mpr h)

/-- The last boundary at or before a position is where the characters that fit in front of it
stop. -/
theorem floor_eq (s : String) (pos : Nat) : floor s pos = byteLength (takeBytes pos s.toList) := by
  have hle := floor_le s pos
  apply Nat.le_antisymm ((boundary_floorFrom s _).le_takeBytes hle)
  refine le_floorFrom (boundary_takeBytes pos s.toList) (Nat.le_min.mpr ⟨?_, ?_⟩)
  · exact byteLength_takeBytes_le pos s.toList
  · rw [length_eq]
    exact (boundary_takeBytes pos s.toList).le

theorem boundary_floor (s : String) (pos : Nat) : Boundary s.toList (floor s pos) :=
  boundary_floorFrom s _

theorem le_floor {s : String} {n pos : Nat} (h : Boundary s.toList n) (hn : n ≤ pos) :
    n ≤ floor s pos := by
  rw [floor_eq]
  exact h.le_takeBytes hn

theorem floor_mono (s : String) {pos pos' : Nat} (h : pos ≤ pos') : floor s pos ≤ floor s pos' :=
  le_floor (boundary_floor s pos) (Nat.le_trans (floor_le s pos) h)

/-- A boundary stays where it is. -/
theorem floor_of_boundary {s : String} {pos : Nat} (h : Boundary s.toList pos) :
    floor s pos = pos := by
  rw [floor_eq, h.byteLength_takeBytes]

/-! ## Reading -/

/-- Reading between two cuts gives what lies between them. -/
theorem toList_read {s : String} {a part b : List Char} {start stop : Nat}
    (hs : s.toList = a ++ part ++ b) (ha : floor s start = byteLength a)
    (hb : floor s stop = byteLength (a ++ part)) : (read s start stop).toList = part := by
  have hmax : max (byteLength a) (byteLength (a ++ part)) = byteLength a + byteLength part := by
    rw [byteLength_append]
    omega
  have hs' : s = String.ofList (a ++ part ++ b) := by rw [← hs, String.ofList_toList]
  rw [read]
  rw [ha, hb, hmax]
  simp only [byteLength_eq_utf8Len]
  rw [hs', String.extract_of_valid, String.toList_ofList]

/-- The characters up to a later cut are those up to an earlier one and those read in between. -/
theorem takeBytes_read {s : String} {start stop : Nat} (h : start ≤ stop) :
    takeBytes stop s.toList = takeBytes start s.toList ++ (read s start stop).toList := by
  obtain ⟨part, hpart⟩ := takeBytes_le h s.toList
  rw [hpart]
  refine congrArg _ (toList_read (b := dropBytes stop s.toList) ?_ (floor_eq s start) ?_).symm
  · rw [← hpart, takeBytes_append_dropBytes]
  · rw [floor_eq, hpart]

/-- Documents that read the same up to a boundary of one of them have the same characters up to
there. -/
theorem shared_of_read {s s' : String} {pos : Nat} (h : Boundary s.toList pos)
    (hread : read s' 0 pos = read s 0 pos) :
    ∃ common back back', s.toList = common ++ back ∧ s'.toList = common ++ back' ∧
      byteLength common = pos := by
  have hzero : ∀ cs, takeBytes 0 cs = [] := fun cs => takeBytes_byteLength [] cs
  have hsame : takeBytes pos s'.toList = takeBytes pos s.toList := by
    rw [takeBytes_read (Nat.zero_le pos), takeBytes_read (Nat.zero_le pos), hread, hzero, hzero]
  refine ⟨takeBytes pos s.toList, dropBytes pos s.toList, dropBytes pos s'.toList,
    (takeBytes_append_dropBytes ..).symm, ?_, h.byteLength_takeBytes⟩
  rw [← hsame, takeBytes_append_dropBytes]

theorem toList_replace {s : String} {a old b : List Char} {text : String}
    (hs : s.toList = a ++ old ++ b) :
    (replace s (byteLength a) (byteLength (a ++ old)) text).toList = a ++ text.toList ++ b := by
  have hstart : Boundary s.toList (byteLength a) := ⟨a, old ++ b, by simp [hs], rfl⟩
  have hstop : Boundary s.toList (byteLength (a ++ old)) := ⟨a ++ old, b, hs, rfl⟩
  have hend : Boundary s.toList (length s) := by
    rw [length_eq]
    exact boundary_byteLength _
  have hfront : (read s 0 (byteLength a)).toList = a :=
    toList_read (a := []) (b := old ++ b) (by simp [hs])
      (floor_of_boundary (boundary_zero _)) (floor_of_boundary hstart)
  have hback : (read s (byteLength (a ++ old)) (length s)).toList = b := by
    apply toList_read (a := a ++ old) (b := []) (by simp [hs]) (floor_of_boundary hstop)
    rw [floor_of_boundary hend, length_eq, hs]
  rw [replace, String.toList_append, String.toList_append, hfront, hback]

end RegionTree.Document
