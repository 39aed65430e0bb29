import RegionTree.Proofs.Document.Reading
import RegionTree.Proofs.Parse.Walk
set_option autoImplicit false

/-!
# Edited documents

An edit describes how one text became another: some of it is gone, something else was put there, and
the rest is as before (`Edit.Describes`).  What lies before the edit is found at the same place in
both texts, and what lies behind it is found again moved by the offset.
-/

namespace RegionTree

open Text (Boundary byteLength)

namespace Edit

/-- An edit leads from a document to another. -/
def Describes (e : Edit) (old new : String) : Prop :=
  ∃ front gone put back, old.toList = front ++ gone ++ back ∧ new.toList = front ++ put ++ back ∧
    e.start = byteLength front ∧ e.stop = byteLength (front ++ gone) ∧
    e.offset = (byteLength put : Int) - byteLength gone

/-- How a document may differ from the one before: not at all if no edit is given, or else by the
replacement of the text between two boundaries. -/
def Consistent (old new : String) : Option Edit → Prop
  | none => new = old
  | some e => ∃ start stop text, start ≤ stop ∧
      Document.isBoundary old start = true ∧ Document.isBoundary old stop = true ∧
      e = .replace start stop (Document.length text) ∧ new = Document.replace old start stop text

variable {e : Edit} {old new : String}

/-- An insertion of nothing at the end leads from a document to itself. -/
theorem describes_insert (document : String) :
    (insert (Document.length document) 0).Describes document document := by
  refine ⟨document.toList, [], [], [], by simp, by simp, ?_, ?_, rfl⟩
  · exact Document.length_eq document
  · rw [List.append_nil]
    exact Document.length_eq document

theorem describes_replace {start stop : Nat} (text : String) (hle : start ≤ stop)
    (hstart : Boundary old.toList start) (hstop : Boundary old.toList stop) :
    (replace start stop (Document.length text)).Describes old
      (Document.replace old start stop text) := by
  obtain ⟨front, gone, back, hs, rfl, rfl⟩ := hstart.split hstop hle
  refine ⟨front, gone, text.toList, back, hs, Document.toList_replace hs, rfl, rfl, ?_⟩
  rw [replace, Document.length_eq, Text.byteLength_append]
  dsimp only
  omega

/-- The edit that a parse works with describes the documents it is given. -/
theorem Consistent.describes {edit : Option Edit} (h : Consistent old new edit) :
    (edit.getD (insert (Document.length new) 0)).Describes old new := by
  cases edit with
  | none =>
    obtain rfl : new = old := h
    exact describes_insert new
  | some e =>
    obtain ⟨start, stop, text, hle, hstart, hstop, rfl, rfl⟩ := h
    rw [Document.isBoundary_iff] at hstart hstop
    exact describes_replace text hle hstart hstop

namespace Describes

/-- Where nothing was changed, the documents are the same. -/
theorem eq_of_isEmpty (h : e.Describes old new) (hempty : e.isEmpty = true) : new = old := by
  obtain ⟨front, gone, put, back, hs, hs', hstart, hstop, hoffset⟩ := h
  simp only [isEmpty, Bool.and_eq_true, beq_iff_eq] at hempty
  rw [Text.byteLength_append] at hstop
  have hgone : gone = [] := Text.byteLength_eq_zero (by omega)
  subst hgone
  have hput : put = [] := Text.byteLength_eq_zero (by
    rw [Text.byteLength_nil] at hoffset
    omega)
  subst hput
  exact String.toList_injective (hs'.trans hs.symm)

/-- What was put in a document that stays the same is what is gone. -/
theorem offset_eq_zero (h : e.Describes old old) : e.offset = 0 := by
  obtain ⟨front, gone, put, back, hs, hs', -, -, hoffset⟩ := h
  have hsame : gone = put := List.append_cancel_left (List.append_cancel_right (hs.symm.trans hs'))
  rw [hoffset, hsame, Int.sub_self]

theorem length_eq (h : e.Describes old new) :
    (Document.length new : Int) = Document.length old + e.offset := by
  obtain ⟨front, gone, put, back, hs, hs', -, -, hoffset⟩ := h
  simp only [Document.length_eq, hs, hs', Text.byteLength_append]
  omega

/-- The text before the edit is in both documents. -/
theorem shared (h : e.Describes old new) : ∃ common rest rest', old.toList = common ++ rest ∧
    new.toList = common ++ rest' ∧ byteLength common = e.start := by
  obtain ⟨front, gone, put, back, hs, hs', hstart, -, -⟩ := h
  exact ⟨front, gone ++ back, put ++ back, by simp [hs], by simp [hs'], hstart.symm⟩

/-- A boundary that does not lie behind the start of an edit stays one. -/
theorem boundary_before (h : e.Describes old new) {pos : Nat} (hpos : Boundary old.toList pos)
    (hle : pos ≤ e.start) : Boundary new.toList pos := by
  obtain ⟨common, rest, rest', hs, hs', hlength⟩ := h.shared
  rw [hs] at hpos
  rw [hs']
  exact Text.boundary_append_left (hpos.of_append_left (by omega))

/-- At a boundary of the new document from which the edit is out of sight, the old document goes on
like the new one, and both are the same as far back as the margin reaches. -/
theorem sameEnd (h : e.Describes old new) {margin pos oldPos : Nat}
    (hpos : Boundary new.toList pos) (hold : (oldPos : Int) + e.offset = pos)
    (hsight : new = old ∨ (e.stop : Int) + e.offset + margin ≤ pos) :
    ∃ front front' back, old.toList = front ++ back ∧ new.toList = front' ++ back ∧
      byteLength front = oldPos ∧ byteLength front' = pos ∧
      Walk.SameEnd margin front front' := by
  rcases hsight with rfl | hsight
  · obtain ⟨front, back, hs, hfront⟩ := hpos
    have hzero := h.offset_eq_zero
    exact ⟨front, front, back, hs, hs, by omega, hfront, .inl rfl⟩
  · obtain ⟨front, gone, put, back, hs, hs', -, hstop, hoffset⟩ := h
    rw [Text.byteLength_append] at hstop
    rw [hs'] at hpos
    obtain ⟨part, rest, rfl, hpart⟩ := hpos.split_append (by
      rw [Text.byteLength_append]
      omega)
    rw [Text.byteLength_append, Text.byteLength_append] at hpart
    refine ⟨front ++ gone ++ part, front ++ put ++ part, rest, by simp [hs], by simp [hs'], ?_, ?_,
      .inr ⟨front ++ gone, front ++ put, part, rfl, rfl, ?_⟩⟩
    · rw [Text.byteLength_append, Text.byteLength_append]
      omega
    · rw [Text.byteLength_append, Text.byteLength_append]
      omega
    · omega

end Describes

end Edit

/-- A boundary behind a place from which two texts go on in the same way is one in both. -/
theorem boundary_behind {front front' back : List Char} {pos : Nat}
    (hpos : Boundary (front ++ back) pos) (hle : byteLength front ≤ pos) {offset : Int}
    (hoffset : (byteLength front : Int) + offset = byteLength front') :
    Boundary (front' ++ back) (movedBy offset pos) := by
  obtain ⟨k, rfl⟩ := Nat.exists_eq_add_of_le hle
  have hmoved : movedBy offset (byteLength front + k) = byteLength front' + k := by
    unfold movedBy
    omega
  rw [hmoved]
  exact Text.boundary_append_right (hpos.of_append_right)

end RegionTree
